/-!
# Stable sorting

Insertion sort on lists. It is written by structural recursion, so closed examples evaluate in the
kernel. The main statements: sorting only rearranges (`sortBy_perm`), the result is in order
(`pairwise_sortBy`), and a list in order is left alone (`sortBy_of_pairwise`).
-/

namespace ConceptSpace.Sequence

variable {α : Type}

/-- Puts `a` in front of the first element that it may precede. -/
def insertSorted (le : α → α → Bool) (a : α) : List α → List α
  | [] => [a]
  | b :: l => if le a b then a :: b :: l else b :: insertSorted le a l

/-- Sorts a list. Elements that may each precede the other keep their order. -/
def sortBy (le : α → α → Bool) (l : List α) : List α :=
  l.foldr (insertSorted le) []

@[simp] theorem sortBy_nil (le : α → α → Bool) : sortBy le [] = [] := rfl

@[simp] theorem sortBy_cons (le : α → α → Bool) (a : α) (l : List α) :
    sortBy le (a :: l) = insertSorted le a (sortBy le l) := rfl

/-- Insertion adds the element and keeps the others. -/
theorem insertSorted_perm (le : α → α → Bool) (a : α) (l : List α) :
    (insertSorted le a l).Perm (a :: l) := by
  induction l with
  | nil => exact .refl _
  | cons b l ih =>
    unfold insertSorted
    split
    · exact .refl _
    · exact (ih.cons b).trans (.swap a b l)

/-- Sorting rearranges: nothing is lost, added or doubled. -/
theorem sortBy_perm (le : α → α → Bool) (l : List α) : (sortBy le l).Perm l := by
  induction l with
  | nil => exact .refl _
  | cons a l ih => exact (insertSorted_perm le a _).trans (ih.cons a)

@[simp] theorem mem_sortBy {le : α → α → Bool} {l : List α} {a : α} :
    a ∈ sortBy le l ↔ a ∈ l :=
  (sortBy_perm le l).mem_iff

@[simp] theorem length_sortBy (le : α → α → Bool) (l : List α) :
    (sortBy le l).length = l.length :=
  (sortBy_perm le l).length_eq

/-- Insertion into an ordered list leaves an ordered list. -/
theorem pairwise_insertSorted {le : α → α → Bool} (total : ∀ a b, le a b || le b a)
    (trans : ∀ a b c, le a b → le b c → le a c) (a : α) {l : List α}
    (ordered : l.Pairwise (le · ·)) : (insertSorted le a l).Pairwise (le · ·) := by
  induction l with
  | nil => simp [insertSorted]
  | cons b l ih =>
    obtain ⟨first, others⟩ := List.pairwise_cons.mp ordered
    unfold insertSorted
    split
    case isTrue h =>
      refine List.pairwise_cons.mpr ⟨fun c hc => ?_, ordered⟩
      rcases List.mem_cons.mp hc with rfl | hc
      · exact h
      · exact trans _ _ _ h (first c hc)
    case isFalse h =>
      refine List.pairwise_cons.mpr ⟨fun c hc => ?_, ih others⟩
      rcases List.mem_cons.mp ((insertSorted_perm le a l).mem_iff.mp hc) with rfl | hc
      · simpa [h] using total c b
      · exact first c hc

/-- The result of sorting is in order. -/
theorem pairwise_sortBy {le : α → α → Bool} (total : ∀ a b, le a b || le b a)
    (trans : ∀ a b c, le a b → le b c → le a c) (l : List α) :
    (sortBy le l).Pairwise (le · ·) := by
  induction l with
  | nil => exact .nil
  | cons a l ih => exact pairwise_insertSorted total trans a ih

/-- A list in order is left as it is. -/
theorem sortBy_of_pairwise {le : α → α → Bool} {l : List α} (ordered : l.Pairwise (le · ·)) :
    sortBy le l = l := by
  induction l with
  | nil => rfl
  | cons a l ih =>
    obtain ⟨first, others⟩ := List.pairwise_cons.mp ordered
    rw [sortBy_cons, ih others]
    cases l with
    | nil => rfl
    | cons b l => simp [insertSorted, first b (by simp)]

end ConceptSpace.Sequence
