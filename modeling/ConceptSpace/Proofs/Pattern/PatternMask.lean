import ConceptSpace.Proofs.Pattern.Generalization

/-!
# The mask of a pattern

A pattern without sets has a mask, and a fact is indexed under it if the fact is an instance of the
pattern (`Clean.mask_mem_masks`). The mask is the pattern with its variables numbered: what bindings
make of the one, other bindings make of the other (`Clean.numbering_instantiate`).
-/

namespace ConceptSpace

open Shape (numberedName namesFrom)

namespace Concept

variable {p : Concept} {ps : List Concept} {b : Bindings}

/-! ## The numbering of a pattern -/

/-- Shapes of parts without the set marker stay in their order. -/
theorem arrange_ofConcepts {head : Concept} {members : List Concept} (h : head.Clean)
    (none : setMarker ∉ head.words) :
    Shape.arrange ((head :: members).map Shape.ofConcept) =
      (head :: members).map Shape.ofConcept := by
  have noMarker : (Shape.ofConcept head).isSetMarker = false := by
    cases head with
    | atom word =>
      unfold Shape.ofConcept
      split
      · rfl
      · simpa [Shape.isSetMarker] using key_head_ne_setMarker h none
    | compound ps =>
      unfold Shape.ofConcept
      split
      · rfl
      · simpa [Shape.isSetMarker] using key_head_ne_setMarker h none
  simp [Shape.arrange, noMarker]

/-- What numbering a pattern from a number on gives, and what bindings of the numbers make of it. -/
structure Numbered (p : Concept) (σ τ : Bindings) (first : Nat) : Prop where
  /-- The result is clean. -/
  clean : ((Shape.ofConcept p).number first).1.Clean
  /-- No set has come in. -/
  none : setMarker ∉ ((Shape.ofConcept p).number first).1.words
  /-- The instances of the result and of the pattern are the same. -/
  instantiates : ((Shape.ofConcept p).number first).1.instantiate σ = p.instantiate τ
  /-- Each occurrence of a variable has taken a number. -/
  free : ((Shape.ofConcept p).number first).2 = first + p.vars.length

/-- The numbers from one on stand for what the variables of a pattern stand for. -/
def Agrees (p : Concept) (σ τ : Bindings) (first : Nat) : Prop :=
  ∀ i name, p.vars[i]? = some name → σ[numberedName (first + i)]? = some ((atom name).instantiate τ)

section

variable {σ τ : Bindings}

/-- Numbering the parts of a pattern one after the other. -/
theorem numbered_all (h : ∀ p ∈ ps, ∀ first, p.Agrees σ τ first → Numbered p σ τ first)
    {first : Nat} (agrees : (compound ps).Agrees σ τ first) :
    (∀ q ∈ (Shape.numberAll (ps.map Shape.ofConcept) first).1, q.Clean ∧ setMarker ∉ q.words) ∧
      (Shape.numberAll (ps.map Shape.ofConcept) first).1.map (instantiate σ) =
        ps.map (instantiate τ) ∧
      (Shape.numberAll (ps.map Shape.ofConcept) first).2 = first + (compound ps).vars.length := by
  induction ps generalizing first with
  | nil => exact ⟨by simp [Shape.numberAll], rfl, by simp [Shape.numberAll]⟩
  | cons p ps ih =>
    have vars : (compound (p :: ps)).vars = p.vars ++ (compound ps).vars := by simp
    have own : p.Agrees σ τ first := fun i name hi =>
      agrees i name <| by
        rw [vars, List.getElem?_append_left (List.getElem?_eq_some_iff.mp hi).1, hi]
    have here := h p (by simp) first own
    have others : (compound ps).Agrees σ τ (first + p.vars.length) := fun i name hi => by
      have := agrees (p.vars.length + i) name (by
        rw [vars, List.getElem?_append_right (by omega), Nat.add_sub_cancel_left, hi])
      rwa [← Nat.add_assoc] at this
    obtain ⟨clean, same, free⟩ := ih (fun q hq => h q (by simp [hq])) others
    simp only [List.map_cons, Shape.numberAll, here.free]
    refine ⟨by simpa using ⟨⟨here.clean, here.none⟩, clean⟩, by rw [here.instantiates, same], ?_⟩
    rw [free, vars, List.length_append, Nat.add_assoc]

variable (hσ : σ.AllValues Clean) (noneσ : σ.AllValues (setMarker ∉ ·.words))
  (hτ : τ.AllValues Clean) (noneτ : τ.AllValues (setMarker ∉ ·.words))

include hσ noneσ hτ noneτ in
/-- Numbering a compound with variables is numbering its parts one after the other. -/
theorem Clean.numbered_compound (h : Clean (.compound ps)) (opened : ¬ IsGround (.compound ps))
    (noSet : setMarker ∉ (compound ps).words) {first : Nat}
    (parts : ∀ p ∈ ps, ∀ first, p.Agrees σ τ first → Numbered p σ τ first)
    (agrees : (compound ps).Agrees σ τ first) : Numbered (.compound ps) σ τ first := by
  obtain ⟨clean, same, free⟩ := numbered_all parts agrees
  have arranged : Shape.arrange (Shape.ofConcepts ps) = ps.map Shape.ofConcept := by
    rw [Shape.ofConcepts_eq_map]
    cases ps with
    | nil => rfl
    | cons head members =>
      exact arrange_ofConcepts (h.of_mem (by simp)) fun m =>
        noSet (mem_words_of_mem_parts (c := .compound (head :: members)) (by simp) m)
  generalize hqs : (Shape.numberAll (ps.map Shape.ofConcept) first).1 = qs at clean same
  have two : 2 ≤ qs.length := by
    have := congrArg List.length same
    rw [List.length_map, List.length_map] at this
    have := h.two_le_length
    omega
  have made : ofParts? qs = some (.compound qs) := by
    refine ofParts?_of_isArranged two ?_
    cases qs with
    | nil => trivial
    | cons head members =>
      obtain ⟨ch, nh⟩ := clean head (by simp)
      exact fun e => absurd e (key_head_ne_setMarker ch nh)
  have e : (Shape.ofConcept (.compound ps)).number first =
      (.compound qs, first + (compound ps).vars.length) := by
    have mentions : anyMentionsVariable ps = true := mentionsVariable_iff.mpr opened
    rw [Shape.ofConcept, if_pos mentions, arranged, Shape.number]
    simp only [hqs, made, free]
  have cleanAll : Clean (.compound qs) := .ofParts (fun q hq => (clean q hq).1) made
  have noneAll : setMarker ∉ (compound qs).words := by
    rw [words_compound, List.mem_flatMap]
    rintro ⟨q, hq, m⟩
    exact (clean q hq).2 m
  refine ⟨by rw [e]; exact cleanAll, by rw [e]; exact noneAll, ?_, by rw [e]⟩
  rw [e, cleanAll.instantiate_compound_of_no_set hσ noneAll noneσ, same,
    h.instantiate_compound_of_no_set hτ noSet noneτ]

include hσ noneσ hτ noneτ in
/-- Bindings of the numbers make of a numbered pattern what bindings of its variables make of the
pattern. -/
theorem Clean.numbering_instantiate (h : p.Clean) (noSet : setMarker ∉ p.words) (first : Nat)
    (agrees : p.Agrees σ τ first) : Numbered p σ τ first := by
  induction p generalizing first with
  | atom word =>
    by_cases hv : startsWith '$' word = true
    · have e : (Shape.ofConcept (.atom word)).number first =
          (.atom (numberedName first), first + 1) := by
        simp [Shape.ofConcept, hv, Shape.number, numberedVariable, numberedName]
      have vars : (Concept.atom word).vars = [word] := by simp [vars_atom, hv]
      have bound := agrees 0 word (by simp [vars])
      refine ⟨?_, ?_, ?_, by rw [e, vars]; rfl⟩
      · rw [e]
        exact clean_atom_iff.mpr (Shape.isToken_numberedName first)
      · rw [e]
        simp only [words_atom, List.mem_singleton]
        exact fun same => by
          have := Shape.startsWith_numberedName first
          rw [← same] at this
          exact absurd this (by decide)
      · rw [e]
        exact instantiate_atom_of_bound (Shape.startsWith_numberedName first) bound
    · have hv : startsWith '$' word = false := by simpa using hv
      have e : (Shape.ofConcept (.atom word)).number first = (.atom word, first) := by
        simp [Shape.ofConcept, hv, Shape.number]
      refine ⟨by rw [e]; exact h, by rw [e]; exact noSet, ?_, by rw [e]; simp [vars_atom, hv]⟩
      rw [e, instantiate_atom_of_not_variable hv, instantiate_atom_of_not_variable hv]
  | compound ps ih =>
    -- A ground compound is kept as it is; one with variables is numbered part by part.
    by_cases ground : IsGround (.compound ps)
    · have mentions : anyMentionsVariable ps = false := mentionsVariable_eq_false_iff.mpr ground
      have e : (Shape.ofConcept (.compound ps)).number first = (.compound ps, first) := by
        simp [Shape.ofConcept, mentions, Shape.number]
      refine ⟨by rw [e]; exact h, by rw [e]; exact noSet, ?_, ?_⟩
      · rw [e, h.instantiate_of_isGround ground, h.instantiate_of_isGround ground]
      · rw [e, ground]
        rfl
    · refine h.numbered_compound hσ noneσ hτ noneτ ground noSet (fun q hq first => ?_) agrees
      exact ih q hq (h.of_mem hq) (fun m =>
        noSet (mem_words_of_mem_parts (c := .compound ps) hq m)) first

end

/-! ## Index entries of instances -/

/-- The places of the variables of a pattern, by number. -/
def placesOf (p : Concept) : Bindings :=
  .numbered 0 (p.vars.map atom)

theorem agrees_placesOf (p : Concept) : p.Agrees p.placesOf ∅ 0 := by
  intro i name hi
  rw [placesOf, Bindings.getElem?_numbered, List.getElem?_map, hi]
  simp [instantiate]

theorem placesOf_values (p : Concept) : p.placesOf.AllValues fun value =>
    ∃ name ∈ p.vars, startsWith '$' name = true ∧ value = .atom name := by
  rw [placesOf, Bindings.allValues_numbered]
  intro value hv
  obtain ⟨name, hn, rfl⟩ := List.mem_map.mp hv
  exact ⟨name, hn, (List.mem_filter.mp hn).2, rfl⟩

theorem Clean.allValues_placesOf (h : p.Clean) : p.placesOf.AllValues Clean := by
  intro _ value e
  obtain ⟨name, hn, -, rfl⟩ := p.placesOf_values e
  exact clean_atom_iff.mpr (h.isToken_of_mem_words (mem_words_of_mem_vars hn))

theorem placesOf_none (p : Concept) : p.placesOf.AllValues (setMarker ∉ ·.words) := by
  intro _ value e
  obtain ⟨name, -, hv, rfl⟩ := p.placesOf_values e
  rw [words_atom, List.mem_singleton]
  rintro rfl
  exact absurd hv (by decide)

/-- The mask of a pattern, with the variables of the pattern put in, is the pattern. -/
theorem Clean.numbered_placesOf (h : p.Clean) (noSet : setMarker ∉ p.words) :
    Numbered p p.placesOf ∅ 0 :=
  h.numbering_instantiate h.allValues_placesOf (placesOf_none p) (Bindings.allValues_empty _)
    (Bindings.allValues_empty _) noSet 0 (agrees_placesOf p)

theorem Clean.mask_instantiate_placesOf (h : p.Clean) (noSet : setMarker ∉ p.words) :
    p.mask.instantiate p.placesOf = p :=
  (h.numbered_placesOf noSet).instantiates.trans (h.instantiate_eq_self (by simp))

/-- A pattern has the places of its variables at the variables of its mask. -/
theorem Clean.match?_mask (h : p.Clean) (noSet : setMarker ∉ p.words) :
    p.match? p.mask = some p.placesOf := by
  have numbered := h.numbered_placesOf noSet
  have vars := h.vars_mask_perm
  have bound : ∀ name ∈ p.mask.vars, p.placesOf[name]? ≠ none := fun name hn => by
    rw [placesOf, Bindings.getElem?_numbered_ne_none_iff, List.length_map]
    exact vars.mem_iff.mp hn
  obtain ⟨places, found, part⟩ := h.clean_mask.exists_match?_instantiate numbered.none
    h.allValues_placesOf (placesOf_none p) bound
  have whole := h.mask_instantiate_placesOf noSet
  rw [whole] at found
  have fits := h.clean_mask.fits_of_match? h found
  rw [found, Bindings.eq_of_isPartOf part fun name hn => ?_]
  rw [placesOf, Bindings.getElem?_numbered_ne_none_iff, List.length_map, ← vars.mem_iff] at hn
  exact fits.ne_none_iff.mpr hn

/-- What bindings make of a pattern at the places of its variables. -/
def placeValues (p : Concept) (b : Bindings) : List Concept :=
  p.vars.map fun name => (atom name).instantiate b

@[simp] theorem length_placeValues (p : Concept) (b : Bindings) :
    (p.placeValues b).length = p.vars.length := by
  simp [placeValues]

/-- Larger bindings make the same of variables that are bound already. -/
theorem placeValues_eq_of_isPartOf {all : Bindings} (bound : ∀ name ∈ p.vars, b[name]? ≠ none)
    (h : b.IsPartOf all) : p.placeValues all = p.placeValues b := by
  refine List.map_congr_left fun name hn => ?_
  obtain ⟨value, e⟩ := Option.ne_none_iff_exists'.mp (bound name hn)
  have isVariable := (List.mem_filter.mp hn).2
  rw [instantiate_atom_of_bound isVariable e, instantiate_atom_of_bound isVariable (h e)]

/-- The values that bindings give to the numbers of a pattern. -/
def numbersOf (p : Concept) (b : Bindings) : Bindings :=
  .numbered 0 (p.placeValues b)

theorem agrees_numbersOf (p : Concept) (b : Bindings) : p.Agrees (p.numbersOf b) b 0 := by
  intro i name hi
  rw [numbersOf, Bindings.getElem?_numbered, placeValues, List.getElem?_map, hi, Option.map_some]

theorem allValues_numbersOf {P : Concept → Prop} (hb : b.AllValues P)
    (bound : ∀ name ∈ p.vars, b[name]? ≠ none) : (p.numbersOf b).AllValues P := by
  rw [numbersOf, Bindings.allValues_numbered]
  intro value hv
  obtain ⟨name, hn, rfl⟩ := List.mem_map.mp hv
  obtain ⟨value, e⟩ := Option.ne_none_iff_exists'.mp (bound name hn)
  rw [instantiate_atom_of_bound (List.mem_filter.mp hn).2 e]
  exact hb e

/-- A fact is indexed under the mask of each pattern that it is an instance of, with the values that
the variables have. -/
theorem Clean.mask_mem_masks (h : Clean (.compound ps)) (opened : ¬ IsGround (.compound ps))
    (noSet : setMarker ∉ (compound ps).words) (plain : HasPlainWord (.compound ps))
    (hb : b.AllValues Clean) (noneBound : b.AllValues (setMarker ∉ ·.words))
    (bound : ∀ name ∈ (compound ps).vars, b[name]? ≠ none) :
    (compound ps).mask ∈ ((compound ps).instantiate b).masks ∧
      ((compound ps).instantiate b).match? (compound ps).mask =
        some ((compound ps).numbersOf b) := by
  have cleanNumbers := allValues_numbersOf hb bound
  have noneNumbers := allValues_numbersOf noneBound bound
  have numbered := h.numbering_instantiate cleanNumbers noneNumbers hb noneBound noSet 0
    (agrees_numbersOf _ b)
  have same : (compound ps).mask.instantiate ((compound ps).numbersOf b) =
      (compound ps).instantiate b := numbered.instantiates
  have covered : ∀ name : String, ((compound ps).numbersOf b)[name]? ≠ none ↔
      name ∈ (compound ps).mask.vars := fun name => by
    rw [numbersOf, Bindings.getElem?_numbered_ne_none_iff, length_placeValues,
      h.vars_mask_perm.mem_iff]
  obtain ⟨found, matched, part⟩ := h.clean_mask.exists_match?_instantiate numbered.none
    cleanNumbers noneNumbers fun name => (covered name).mpr
  rw [same] at matched
  have fits := h.clean_mask.fits_of_match? (h.instantiate hb) matched
  obtain rfl : found = (compound ps).numbersOf b := Bindings.eq_of_isPartOf part fun name hn =>
    fits.ne_none_iff.mpr ((covered name).mp hn)
  refine ⟨?_, matched⟩
  obtain ⟨_, fitted, -⟩ := h.exists_match?_instantiate noSet hb noneBound bound
  have covers := h.covers_of_unify (h.instantiate hb) fitted
  exact covers.mask_mem_masks h (h.instantiate hb) (isPattern_iff.mpr ⟨rfl, opened⟩) plain

end Concept

/-! ## Binding several variables -/

namespace Bindings

/-- Binds several variables, one after the other. -/
def bindAll (b : Bindings) (pairs : List (String × Concept)) : Option Bindings :=
  pairs.foldlM (fun acc pair => acc.bind? pair.1 pair.2) b

theorem bindAll_cons (b : Bindings) (pair : String × Concept) (pairs : List (String × Concept)) :
    b.bindAll (pair :: pairs) = (b.bind? pair.1 pair.2).bind (·.bindAll pairs) := rfl

theorem AllValues.bindAll {P : Concept → Prop} {b b' : Bindings}
    {pairs : List (String × Concept)} (hb : b.AllValues P) (hp : ∀ pair ∈ pairs, P pair.2)
    (h : b.bindAll pairs = some b') : b'.AllValues P := by
  induction pairs generalizing b with
  | nil => exact Option.some.inj h ▸ hb
  | cons pair pairs ih =>
    rw [bindAll_cons] at h
    obtain ⟨b₁, first, rest⟩ := Option.bind_eq_some_iff.mp h
    exact ih (hb.bind? (hp pair (by simp)) first) (fun q hq => hp q (by simp [hq])) rest

theorem AllValues.merge? {P : Concept → Prop} {b extra all : Bindings} (hb : b.AllValues P)
    (he : extra.AllValues P) (h : b.merge? extra = some all) : all.AllValues P :=
  hb.bindAll (fun _ hp => he (Std.ExtTreeMap.mem_toList_iff_getElem?_eq_some.mp hp)) h

/-- Binding several variables binds each of them. -/
theorem extends_of_bindAll {b b' : Bindings} {pairs : List (String × Concept)}
    (clean : ∀ pair ∈ pairs, pair.2.Clean) (hb : b.AllValues Concept.Clean)
    (h : b.bindAll pairs = some b') :
    Extends (pairs.map (·.1)) b b' ∧ ∀ pair ∈ pairs, b'[pair.1]? = some pair.2 := by
  induction pairs generalizing b with
  | nil =>
    obtain rfl : b = b' := Option.some.inj h
    exact ⟨.refl hb, by simp⟩
  | cons pair pairs ih =>
    rw [bindAll_cons] at h
    obtain ⟨b₁, first, rest⟩ := Option.bind_eq_some_iff.mp h
    obtain ⟨extended, bound⟩ := extends_of_bind? (clean pair (by simp)) hb first
    obtain ⟨more, others⟩ := ih (fun q hq => clean q (by simp [hq])) extended.clean rest
    refine ⟨extended.trans more, fun q hq => ?_⟩
    rcases List.mem_cons.mp hq with rfl | hq
    · exact more.keeps bound
    · exact others q hq

/-- Binding several variables as larger bindings do succeeds and stays within them. -/
theorem exists_bindAll {b all : Bindings} {pairs : List (String × Concept)} (hb : b.IsPartOf all)
    (h : ∀ pair ∈ pairs, all[pair.1]? = some pair.2) :
    ∃ b', b.bindAll pairs = some b' ∧ b'.IsPartOf all := by
  induction pairs generalizing b with
  | nil => exact ⟨b, rfl, hb⟩
  | cons pair pairs ih =>
    obtain ⟨b₁, first, h₁⟩ := exists_bind? hb (h pair (by simp))
    obtain ⟨b', rest, h'⟩ := ih h₁ fun q hq => h q (by simp [hq])
    exact ⟨b', by rw [bindAll_cons, first]; exact rest, h'⟩

end Bindings

end ConceptSpace
