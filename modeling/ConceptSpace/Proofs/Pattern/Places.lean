import Mathlib.Algebra.Order.BigOperators.Group.List
import Mathlib.Algebra.Order.Group.Nat
import ConceptSpace.Proofs.Pattern.PatternMask

/-!
# The places of a pattern in its mask

A mask has the words of its pattern but for the names of the variables. So when the mask is fitted
to the pattern, there is room for nothing but variables at its numbers, and each occurrence of a
variable stands at one of them (`Clean.exists_match?_mask_eq`). This holds for patterns with sets,
too, where it need not be the first number that stands for the first variable.
-/

namespace ConceptSpace

open Shape (numberedName namesFrom)

/-- Bindings of the numbers to the variables of a list. -/
def Bindings.IsRenaming (places : Bindings) (names : List String) : Prop :=
  ∀ i name, names[i]? = some name →
    Concept.startsWith '$' name = true ∧ places[numberedName i]? = some (.atom name)

namespace Concept

variable {p c : Concept} {ps : List Concept} {places : Bindings}

theorem isRenaming_placesOf (p : Concept) : p.placesOf.IsRenaming p.vars := by
  intro i name hi
  have place := Bindings.getElem?_numbered 0 (p.vars.map atom) i
  rw [Nat.zero_add, List.getElem?_map, hi, Option.map_some] at place
  exact ⟨(List.mem_filter.mp (List.mem_of_getElem? hi)).2, place⟩

/-! ## Counting words -/

/-- If lists put together from shorter and from longer lists have the same length, none of the
former is shorter. -/
theorem length_eq_of_length_flatMap_eq {α β γ : Type} {l : List α} {f : α → List β}
    {g : α → List γ} (le : ∀ a ∈ l, (f a).length ≤ (g a).length)
    (same : (l.flatMap f).length = (l.flatMap g).length) :
    ∀ a ∈ l, (f a).length = (g a).length := by
  intro a ha
  by_contra differ
  have less := List.sum_lt_sum (fun a => (f a).length) (fun a => (g a).length) le
    ⟨a, ha, lt_of_le_of_ne (le a ha) differ⟩
  rw [← List.length_flatMap, ← List.length_flatMap] at less
  exact less.ne same

theorem Clean.one_le_length_words (h : c.Clean) : 1 ≤ c.words.length :=
  List.length_pos_iff.mpr h.words_ne_nil

theorem Clean.exists_eq_atom (h : c.Clean) (one : c.words.length = 1) : ∃ word, c = .atom word := by
  cases c with
  | atom word => exact ⟨word, rfl⟩
  | compound ps =>
    have parts : ps.length ≤ ((ps.map fun p => p.words.length)).sum := by
      have := List.length_le_sum_of_one_le (ps.map fun p => p.words.length) fun n hn => by
        obtain ⟨p, hp, rfl⟩ := List.mem_map.mp hn
        exact (h.of_mem hp).one_le_length_words
      rwa [List.length_map] at this
    rw [words_compound, List.length_flatMap] at one
    have := h.two_le_length
    omega

/-- At the numbers of its mask a pattern has variables. -/
theorem Clean.exists_place (h : p.Clean) (found : p.match? p.mask = some places) :
    ∀ number ∈ p.mask.vars, ∃ name, startsWith '$' name = true ∧
      places[number]? = some (.atom name) := by
  have fits := h.clean_mask.fits_of_match? h found
  have whole : p.mask.instantiate places = p := fits.instantiates
  have cleanAt : ∀ word ∈ p.mask.words, ((Concept.atom word).instantiate places).Clean := by
    intro word hw
    exact (clean_atom_iff.mpr (h.clean_mask.isToken_of_mem_words hw)).instantiate fits.clean
  -- Each word of the mask stands for one word, since there are no more words in the pattern.
  have oneWord : ∀ word ∈ p.mask.words,
      [word].length = ((Concept.atom word).instantiate places).words.length := by
    refine length_eq_of_length_flatMap_eq (fun word hw => (cleanAt word hw).one_le_length_words) ?_
    have filled := (h.clean_mask.words_instantiate places).length_eq
    have words := h.words_mask.length_eq
    rw [List.length_map, List.length_map] at words
    rw [List.flatMap_singleton', words, ← filled, whole]
  -- Each number stands for a variable, since there are no fewer variables in the pattern.
  have oneVariable : ∀ number ∈ p.mask.vars,
      ((Concept.atom number).instantiate places).vars.length = [number].length := by
    refine length_eq_of_length_flatMap_eq (fun number hn => ?_) ?_
    · rw [oneWord number (mem_words_of_mem_vars hn)]
      exact List.length_filter_le _ _
    · have filled := (h.clean_mask.vars_instantiate places).length_eq
      have vars := h.vars_mask_perm.length_eq
      rw [namesFrom, List.length_map, List.length_range'] at vars
      rw [List.flatMap_singleton', vars, ← filled, whole]
  intro number hn
  obtain ⟨value, e⟩ := Option.ne_none_iff_exists'.mp (fits.ne_none_iff.mpr hn)
  have placed := instantiate_atom_of_bound (List.mem_filter.mp hn).2 e
  obtain ⟨name, rfl⟩ := (fits.clean e).exists_eq_atom
    (placed ▸ (oneWord number (mem_words_of_mem_vars hn)).symm)
  refine ⟨name, ?_, e⟩
  have isVariable := oneVariable number hn
  rw [placed, vars_atom] at isVariable
  by_contra hv
  simp [hv] at isVariable

/-- The mask of a pattern, fitted to it, has the variables of the pattern at its numbers, each as
often as it occurs. -/
theorem Clean.exists_isRenaming (h : p.Clean) (found : p.match? p.mask = some places) :
    ∃ names : List String, names.Perm p.vars ∧ places.IsRenaming names := by
  have fits := h.clean_mask.fits_of_match? h found
  choose! name isVariable placed using h.exists_place found
  have numbers := h.vars_mask_perm
  refine ⟨(namesFrom 0 p.vars.length).map name, ?_, fun i n hi => ?_⟩
  · have vars := h.clean_mask.vars_instantiate places
    have each : p.mask.vars.flatMap (fun v => ((Concept.atom v).instantiate places).vars) =
        p.mask.vars.map name := by
      rw [List.map_eq_flatMap]
      refine List.flatMap_congr fun v hv => ?_
      rw [instantiate_atom_of_bound (List.mem_filter.mp hv).2 (placed v hv), vars_atom,
        if_pos (isVariable v hv)]
    rw [fits.instantiates, each] at vars
    exact ((numbers.map name).symm.trans vars.symm)
  · rw [List.getElem?_map] at hi
    obtain ⟨v, e, rfl⟩ := Option.map_eq_some_iff.mp hi
    have hv : v ∈ p.mask.vars := numbers.mem_iff.mpr (List.mem_of_getElem? e)
    obtain rfl : numberedName i = v := by
      obtain ⟨_, rfl⟩ := List.getElem?_eq_some_iff.mp e
      simp [namesFrom]
    exact ⟨isVariable _ hv, placed _ hv⟩

/-- The mask of a pattern fits the pattern, and its numbers stand for nothing but the variables, in
some order. -/
theorem Clean.exists_match?_mask_eq (h : p.Clean) : ∃ names : List String,
    names.Perm p.vars ∧ p.match? p.mask = some (.numbered 0 (names.map .atom)) := by
  obtain ⟨places, found⟩ :=
    Option.isSome_iff_exists.mp ((Covers.refl p).isSome_match?_mask h h)
  obtain ⟨names, perm, placed⟩ := h.exists_isRenaming found
  have fits := h.clean_mask.fits_of_match? h found
  refine ⟨names, perm, found.trans (congrArg some ?_)⟩
  refine Bindings.eq_numbered (fun number => ?_) fun i hi => ?_
  · rw [fits.ne_none_iff, h.vars_mask_perm.mem_iff, List.length_map, perm.length_eq]
  · rw [List.length_map] at hi
    have place := (placed i names[i] (List.getElem?_eq_getElem hi)).2
    rw [place, List.getElem?_map, List.getElem?_eq_getElem hi, Option.map_some]

end Concept

end ConceptSpace
