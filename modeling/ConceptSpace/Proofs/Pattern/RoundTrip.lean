import ConceptSpace.Proofs.Pattern.Settled
import ConceptSpace.Proofs.Pattern.Substitution

/-!
# From a concept to bindings and back

Bindings that fit a pattern to a concept bind just the variables of the pattern, and to put them
into the pattern gives the concept (`Clean.substitute_of_match?`).

Conversely, a pattern into which values have been put should fit the result, under some bindings.
This holds for settled patterns (`Clean.isSome_match?_of_isSettled`), but not for all: the search
does not come back to a set when what stands behind it does not fit (`coupledSet_not_fitted`).
-/

namespace ConceptSpace.Concept

variable {c p : Concept} {b all : Bindings}

/-! ## Back to the concept -/

/-- The words of what is bound are words of the concept. -/
theorem Fits.not_mem_words {word : String} (fits : Fits p c ∅ b) (hp : p.Clean)
    (none : word ∉ c.words) : b.AllValues (word ∉ ·.words) := by
  intro name value e hw
  have bound : b[name]? ≠ .none := by simp [e]
  obtain ⟨inWords, hv⟩ := List.mem_filter.mp (fits.ne_none_iff.mp bound)
  refine none ?_
  rw [← fits.instantiates, hp.mem_words_instantiate]
  exact ⟨name, inWords, by rwa [instantiate_atom_of_bound hv e]⟩

/-- The bindings that fit a pattern to a concept bind just the variables of the pattern; put into
the pattern, they give the concept and nothing else. The word `&` has to be missing, since it would
stand for other parts. -/
theorem Clean.substitute_of_match? (hp : p.Clean) (hc : c.Clean) (noSelf : selfReference ∉ p.words)
    (noSelf' : selfReference ∉ c.words) (h : c.match? p = some b) :
    (∀ name : String, b[name]? ≠ none ↔ name ∈ p.vars) ∧
      Source.substitute b.values [p] = .ok [c] := by
  have fits := hp.fits_of_match? hc h
  refine ⟨fun name => fits.ne_none_iff, ?_⟩
  rw [Source.substitute_eq (by simpa using hp) fits.clean (by simpa using noSelf)
    (fits.not_mem_words hp noSelf'), List.map_singleton, fits.instantiates, distinct_singleton]

/-- A set of a variable, a set and a sequence. -/
private def nestedPattern : Concept :=
  .compound [.atom ":", .atom "$z", .compound [.atom ":", .atom "$x", .atom "b"],
    .compound [.atom "f", .atom "$x"]]

/-- A concept of this form, in which a variable stands, too. -/
private def nestedConcept : Concept :=
  .compound [.atom ":", .compound [.atom ":", .atom "$y", .atom "b"],
    .compound [.atom "f", .atom "$y"],
    .compound [.atom "g", .compound [.atom ":", .atom "u", .atom "v"]]]

theorem nestedPattern_comes_back : nestedPattern.Clean ∧ nestedConcept.Clean ∧
    selfReference ∉ nestedPattern.words ∧ selfReference ∉ nestedConcept.words ∧
      ∃ b, nestedConcept.match? nestedPattern = some b ∧ b["$x"]? = some (.atom "$y") ∧
        (∀ name : String, b[name]? ≠ none ↔ name ∈ nestedPattern.vars) ∧
          Source.substitute b.values [nestedPattern] = .ok [nestedConcept] := by
  have hp : nestedPattern.Clean := by decide +kernel
  have hc : nestedConcept.Clean := by decide +kernel
  have noSelf : selfReference ∉ nestedPattern.words := by decide +kernel
  have noSelf' : selfReference ∉ nestedConcept.words := by decide +kernel
  have found : (nestedConcept.match? nestedPattern).bind (·["$x"]?) = some (.atom "$y") := by
    decide +kernel
  obtain ⟨b, fitted, bound⟩ := Option.bind_eq_some_iff.mp found
  exact ⟨hp, hc, noSelf, noSelf', b, fitted, bound,
    hp.substitute_of_match? hc noSelf noSelf' fitted⟩

/-! ## Whatever fits is found -/

/-- A settled pattern is fitted to the concepts that it reads as under some bindings. -/
theorem Clean.isSome_match?_iff_of_isSettled (hp : p.Clean) (settled : p.IsSettled) (hc : c.Clean) :
    (c.match? p).isSome = true ↔ ∃ all : Bindings, all.AllValues Clean ∧ ReadsAs all p c := by
  rw [Option.isSome_iff_exists]
  constructor
  · rintro ⟨b, found⟩
    exact ⟨b, (hp.fits_of_match? hc found).clean,
      hp.readsAs_of_unify hc (Bindings.allValues_empty _) found⟩
  · rintro ⟨all, hall, reads⟩
    obtain ⟨b, found, -⟩ := hp.keepsCourse settled hc reads
      (.of_isPartOf (Bindings.isPartOf_empty all) hall _)
    exact ⟨b, found⟩

/-- If concepts put in for the variables of a settled pattern make it a concept, the pattern fits
the concept. No sequence of more than two parts may have become a set, since its members would have
changed their places. -/
theorem Clean.isSome_match?_of_isSettled (hp : p.Clean) (settled : p.IsSettled) (hc : c.Clean)
    (hall : all.AllValues Clean) (bound : ∀ name ∈ p.vars, all[name]? ≠ none)
    (keeps : KeepsOrder all p) (same : (p.instantiate all).key = c.key) :
    (c.match? p).isSome = true := by
  obtain rfl : p.instantiate all = c := ((hp.instantiate hall).key_inj hc).mp same
  exact (hp.isSome_match?_iff_of_isSettled settled hc).mpr
    ⟨all, hall, hp.readsAs_instantiate keeps bound⟩

/-- Concepts for the variables of a set of two. -/
private def pairing : Bindings :=
  ((∅ : Bindings).insert "$x" (.atom "b")).insert "$y" (.atom "a")

private theorem clean_pairing : pairing.AllValues Clean :=
  ((Bindings.allValues_empty _).insert (by decide)).insert (by decide)

/-- A set of two variables, the first of which has its value from in front of the set. -/
private def leadingPattern : Concept :=
  .compound [.atom "$x", .compound [.atom ":", .atom "$x", .atom "$y"],
    .compound [.atom "g", .atom "$x"]]

theorem leadingPattern_fits :
    leadingPattern.Clean ∧ leadingPattern.IsSettled ∧ KeepsOrder pairing leadingPattern ∧
      (leadingPattern.instantiate pairing).key = "b [: a b] [g b]" ∧
        ((leadingPattern.instantiate pairing).match? leadingPattern).isSome = true := by
  have hp : leadingPattern.Clean := by decide +kernel
  have settled : leadingPattern.IsSettled := by decide +kernel
  have keeps : KeepsOrder pairing leadingPattern := by decide +kernel
  exact ⟨hp, settled, keeps, by decide +kernel, hp.isSome_match?_of_isSettled settled
    (hp.instantiate clean_pairing) clean_pairing (by decide +kernel) keeps rfl⟩

/-- The set stands in front of the variable. -/
private def coupledSet : Concept :=
  .compound [.compound [.atom ":", .atom "$x", .atom "$y"], .atom "$x"]

/-- The members of the set are paired with `a` and `b` in this order, and nothing comes back to them
when the variable behind them turns out to be `b`. -/
theorem coupledSet_not_fitted :
    coupledSet.Clean ∧ pairing.AllValues Clean ∧ (∀ name ∈ coupledSet.vars, pairing[name]? ≠ none) ∧
      (∀ d ∈ coupledSet :: coupledSet.inside, (d.instantiate pairing).isSet = true →
        d.isSet = true) ∧
      (coupledSet.instantiate pairing).Clean ∧
        (coupledSet.instantiate pairing).key = "[: a b] b" ∧
          (coupledSet.instantiate pairing).match? coupledSet = none := by
  have hp : coupledSet.Clean := by decide +kernel
  refine ⟨hp, clean_pairing, by decide +kernel, by decide +kernel, hp.instantiate clean_pairing,
    by decide +kernel, ?_⟩
  rw [← Option.isNone_iff_eq_none]
  decide +kernel

end ConceptSpace.Concept
