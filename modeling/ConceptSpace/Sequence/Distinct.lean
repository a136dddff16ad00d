import Std.Data.TreeSet

/-!
# Lists without repetition

Elements are told apart by a key; of those that share one, the first stays. The main statements:
the result is a sublist (`distinctBy_sublist`), its keys do not repeat (`nodup_keys_distinctBy`),
and no key is lost (`mem_keys_distinctBy`).
-/

namespace ConceptSpace.Sequence

variable {α κ : Type} [Ord κ]

/-- Keeps the elements whose key neither is in `seen` nor stood earlier in the list. -/
def distinctFrom (key : α → κ) (seen : Std.TreeSet κ) : List α → List α
  | [] => []
  | a :: l =>
    if seen.contains (key a) then distinctFrom key seen l
    else a :: distinctFrom key (seen.insert (key a)) l

/-- Keeps the first element of each key. -/
def distinctBy (key : α → κ) (l : List α) : List α :=
  distinctFrom key ∅ l

theorem distinctFrom_sublist (key : α → κ) (seen : Std.TreeSet κ) (l : List α) :
    (distinctFrom key seen l).Sublist l := by
  induction l generalizing seen with
  | nil => exact .slnil
  | cons a l ih =>
    unfold distinctFrom
    split
    · exact (ih seen).cons a
    · exact (ih _).cons_cons a

/-- The result keeps the order of the list. -/
theorem distinctBy_sublist (key : α → κ) (l : List α) : (distinctBy key l).Sublist l :=
  distinctFrom_sublist key ∅ l

variable [Std.TransOrd κ] [Std.LawfulEqOrd κ]

theorem mem_keys_distinctFrom {key : α → κ} {seen : Std.TreeSet κ} {l : List α} {k : κ} :
    k ∈ (distinctFrom key seen l).map key ↔ k ∈ l.map key ∧ seen.contains k = false := by
  induction l generalizing seen with
  | nil => simp [distinctFrom]
  | cons a l ih =>
    unfold distinctFrom
    split
    case isTrue h =>
      rw [ih, List.map_cons, List.mem_cons]
      constructor
      · exact fun ⟨hk, hs⟩ => ⟨.inr hk, hs⟩
      · rintro ⟨rfl | hk, hs⟩
        · simp [h] at hs
        · exact ⟨hk, hs⟩
    case isFalse h =>
      rw [List.map_cons, List.mem_cons, ih, List.map_cons, List.mem_cons,
        Std.TreeSet.contains_insert]
      by_cases hk : k = key a
      · subst hk; simp [h]
      · have : (compare (key a) k == .eq) = false := by
          simpa using fun e => hk e.symm
        simp [hk, this]

/-- Every key of the list is kept. -/
theorem mem_keys_distinctBy {key : α → κ} {l : List α} {k : κ} :
    k ∈ (distinctBy key l).map key ↔ k ∈ l.map key := by
  rw [distinctBy, mem_keys_distinctFrom]
  simp

theorem nodup_keys_distinctFrom (key : α → κ) (seen : Std.TreeSet κ) (l : List α) :
    ((distinctFrom key seen l).map key).Nodup := by
  induction l generalizing seen with
  | nil => exact .nil
  | cons a l ih =>
    unfold distinctFrom
    split
    · exact ih seen
    · refine List.nodup_cons.mpr ⟨fun h => ?_, ih _⟩
      have := (mem_keys_distinctFrom.mp h).2
      simp at this

/-- No key occurs twice in the result. -/
theorem nodup_keys_distinctBy (key : α → κ) (l : List α) :
    ((distinctBy key l).map key).Nodup :=
  nodup_keys_distinctFrom key ∅ l

end ConceptSpace.Sequence
