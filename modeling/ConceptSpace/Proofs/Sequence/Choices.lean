import Mathlib.Data.List.Basic

/-!
# Choices

All ways to pick one element of each of several lists, the pick from the first list varying
slowest.
-/

namespace ConceptSpace.Sequence

variable {α β : Type}

/-- The lists that have an element of each list at its place. -/
def choices : List (List α) → List (List α)
  | [] => [[]]
  | l :: more => l.flatMap fun a => (choices more).map (a :: ·)

/-- A choice from all lists is one from the first lists and one from the others. -/
theorem choices_append (ls more : List (List α)) :
    choices (ls ++ more) = (choices ls).flatMap fun first => (choices more).map (first ++ ·) := by
  induction ls with
  | nil => simp [choices]
  | cons l ls ih =>
    rw [List.cons_append, choices, ih, choices, List.flatMap_assoc]
    refine List.flatMap_congr fun a _ => ?_
    rw [List.map_flatMap, List.flatMap_map]
    refine List.flatMap_congr fun first _ => ?_
    rw [List.map_map]
    rfl

theorem choices_singleton (l : List α) : choices [l] = l.map ([·]) := by
  rw [List.map_eq_flatMap]
  rfl

/-- Where each list has one element, there is one choice. -/
theorem choices_map_singleton (l : List α) : choices (l.map ([·])) = [l] := by
  induction l with
  | nil => rfl
  | cons a l ih => simp [choices, ih]

theorem choices_map_map (f : α → β) (ls : List (List α)) :
    choices (ls.map (List.map f)) = (choices ls).map (List.map f) := by
  induction ls with
  | nil => rfl
  | cons l ls ih =>
    simp [choices, ih, List.flatMap_map, List.map_flatMap, Function.comp_def]

theorem length_of_mem_choices {ls : List (List α)} {l : List α} (h : l ∈ choices ls) :
    l.length = ls.length := by
  induction ls generalizing l with
  | nil =>
    obtain rfl : l = [] := List.mem_singleton.mp h
    rfl
  | cons as ls ih =>
    obtain ⟨a, -, h⟩ := List.mem_flatMap.mp h
    obtain ⟨rest, hr, rfl⟩ := List.mem_map.mp h
    rw [List.length_cons, ih hr, List.length_cons]

/-- Each element of a choice comes from one of the lists. -/
theorem exists_of_mem_choices {ls : List (List α)} {l : List α} (h : l ∈ choices ls) {a : α}
    (ha : a ∈ l) : ∃ as ∈ ls, a ∈ as := by
  induction ls generalizing l with
  | nil =>
    obtain rfl : l = [] := List.mem_singleton.mp h
    exact absurd ha (by simp)
  | cons as ls ih =>
    obtain ⟨b, hb, h⟩ := List.mem_flatMap.mp h
    obtain ⟨rest, hr, rfl⟩ := List.mem_map.mp h
    rcases List.mem_cons.mp ha with rfl | ha
    · exact ⟨as, by simp, hb⟩
    · obtain ⟨more, hm, ha⟩ := ih hr ha
      exact ⟨more, by simp [hm], ha⟩

theorem choices_ne_nil {ls : List (List α)} (h : ∀ l ∈ ls, l ≠ []) : choices ls ≠ [] := by
  induction ls with
  | nil => simp [choices]
  | cons l ls ih =>
    obtain ⟨a, more, rfl⟩ := List.exists_cons_of_ne_nil (h l (by simp))
    have rest := ih fun m hm => h m (by simp [hm])
    simp [choices, rest]

end ConceptSpace.Sequence
