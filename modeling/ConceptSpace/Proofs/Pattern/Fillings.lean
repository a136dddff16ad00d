import ConceptSpace.Proofs.Pattern.Substitution

/-!
# Fillings by place

What substitution gives, said place by place. At every place of a word stands one of its *options*:
a value of the variable, or the word itself where there are no values. The places are filled
independently of each other, from a choice for each of them, and the choice for the leftmost place
varies slowest (`substitute_eq_choices`).
-/

namespace ConceptSpace

namespace Concept

/-- What may stand in the place of a word. -/
def options (values : Values) (word : String) : List Concept :=
  if startsWith '$' word = true ∧ values word ≠ [] then values word else [.atom word]

mutual

/-- A concept with others in the places of its words, from left to right. Sets are put in order
again. -/
def withWords : Concept → List Concept → Concept
  | .atom word, inserted => inserted.headD (.atom word)
  | .compound parts, inserted => (ofParts? (allWithWords parts inserted)).getD (.compound parts)

/-- Several concepts with others in the places of their words, from left to right. -/
def allWithWords : List Concept → List Concept → List Concept
  | [], _ => []
  | part :: more, inserted =>
    part.withWords (inserted.take part.words.length) ::
      allWithWords more (inserted.drop part.words.length)

end

variable {values : Values} {c : Concept} {ps : List Concept}

theorem fillings_atom (values : Values) (word : String) :
    (atom word).fillings values = options values word := by
  by_cases free : startsWith '$' word = true → values word = []
  · rw [fillings_atom_of_free free, options, if_neg fun h => h.2 (free h.1)]
  · obtain ⟨hv, bound⟩ := Classical.not_imp.mp free
    rw [fillings_atom_of_bound hv bound, options, if_pos ⟨hv, bound⟩]

theorem length_allWithWords (ps inserted : List Concept) :
    (allWithWords ps inserted).length = ps.length := by
  induction ps generalizing inserted with
  | nil => rfl
  | cons p ps ih => simp [allWithWords, ih]

/-- Filling the places of several concepts is filling those of each. -/
theorem choices_allWithWords (options : String → List Concept) (ps : List Concept) :
    (Sequence.choices ((ps.flatMap words).map options)).map (allWithWords ps) =
      Sequence.choices (ps.map fun p =>
        (Sequence.choices (p.words.map options)).map p.withWords) := by
  induction ps with
  | nil => rfl
  | cons p ps ih =>
    rw [List.flatMap_cons, List.map_append, Sequence.choices_append, List.map_flatMap,
      List.map_cons, Sequence.choices, ← ih, List.flatMap_map]
    refine List.flatMap_congr fun first hf => ?_
    have length : first.length = p.words.length := by
      simpa using Sequence.length_of_mem_choices hf
    simp [allWithWords, ← length, Function.comp_def]

/-- The fillings of a clean concept, place by place. -/
theorem Clean.fillings_eq_choices (h : c.Clean) :
    c.fillings values = (Sequence.choices (c.words.map (options values))).map c.withWords := by
  induction c with
  | atom word =>
    rw [fillings_atom, words_atom, List.map_singleton, Sequence.choices_singleton, List.map_map]
    exact (List.map_id _).symm
  | compound ps ih =>
    have each : ps.map (fillings values) = ps.map fun p =>
        (Sequence.choices (p.words.map (options values))).map p.withWords :=
      List.map_congr_left fun p hp => ih p hp (h.of_mem hp)
    have made : ∀ inserted, ofParts? (allWithWords ps inserted) =
        some ((compound ps).withWords inserted) := fun inserted => by
      obtain ⟨placed, made, -, -⟩ := ofParts?_eq_compound (allWithWords ps inserted)
        (length_allWithWords ps inserted ▸ h.two_le_length)
      rw [withWords, made, Option.getD_some]
    rw [fillings_compound, each, ← choices_allWithWords, List.filterMap_map, words_compound]
    exact (List.filterMap_congr fun inserted _ => made inserted).trans
      (congrFun List.filterMap_eq_map _)

end Concept

namespace Source

/-- Putting clean values into clean concepts succeeds, if none of them has the word `&`. The results
are the concepts with an option in each place of a word, for every choice of the options, each
result once. Bindings and interpolations are such values. -/
theorem substitute_eq_choices {values : Values} {cs : List Concept} (hc : ∀ c ∈ cs, c.Clean)
    (clean : ∀ name, ∀ value ∈ values name, value.Clean)
    (none : ∀ c ∈ cs, Concept.selfReference ∉ c.words)
    (noneInserted : ∀ name, ∀ value ∈ values name, Concept.selfReference ∉ value.words) :
    substitute values cs = .ok (Concept.distinct (cs.flatMap fun c =>
      (Sequence.choices (c.words.map (Concept.options values))).map c.withWords)) := by
  rw [substitute_eq_fillings hc clean none noneInserted]
  exact congrArg (fun l => Except.ok (Concept.distinct l))
    (List.flatMap_congr fun c h => (hc c h).fillings_eq_choices)

/-- Two values, one with a variable inside, and a value that comes twice. -/
private def severalValues : Interpolations :=
  (Std.ExtTreeMap.insert ∅ "$x" [.atom "b", .compound [.atom "f", .atom "$y"]]).insert "$y"
    [.atom "a", .atom "a"]

/-- A set in which one variable stands twice and another once, beside a literal. -/
private def template : Concept :=
  .compound [.atom ":", .compound [.atom "$x", .atom "$x"], .atom "$y", .atom "<<$x, y>>"]

theorem template_fillings :
    template.Clean ∧ Concept.selfReference ∉ template.words ∧
      (∀ name, ∀ value ∈ severalValues.values name,
        value.Clean ∧ Concept.selfReference ∉ value.words) ∧
      (substitute severalValues.values [template]).map (·.map Concept.key) =
        .ok [": <<$x, y>> a [b b]", ": <<$x, y>> a [b [f $y]]", ": <<$x, y>> [[f $y] b] a",
          ": <<$x, y>> [[f $y] [f $y]] a"] := by
  have clean : template.Clean := by decide +kernel
  have none : Concept.selfReference ∉ template.words := by decide +kernel
  have inserted : ∀ name, ∀ value ∈ severalValues.values name,
      value.Clean ∧ Concept.selfReference ∉ value.words := by
    intro name value hm
    by_cases hx : name = "$x"
    · subst hx
      revert value
      decide +kernel
    · by_cases hy : name = "$y"
      · subst hy
        revert value
        decide +kernel
      · have missing : severalValues.values name = [] := by
          simp [severalValues, Interpolations.values, Std.ExtTreeMap.getD_insert, Ne.symm hx,
            Ne.symm hy]
        simp [missing] at hm
  refine ⟨clean, none, inserted, ?_⟩
  rw [substitute_eq_choices (by simpa using clean) (fun name value hm => (inserted name value hm).1)
    (by simpa using none) fun name value hm => (inserted name value hm).2]
  decide +kernel

end Source

end ConceptSpace
