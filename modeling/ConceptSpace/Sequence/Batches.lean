/-!
# Batches

A list cut into runs of bounded length, as bulk reads and writes are issued. The batches put together
again are the list (`flatten_batches`), and lists that are cut side by side stay aligned
(`zip_batches_map`).
-/

namespace ConceptSpace.Sequence

variable {α β γ : Type}

/-- Cuts a list into runs of `size` elements, the last one possibly shorter. A size of zero counts
as one. -/
def batches (size : Nat) : List α → List (List α)
  | [] => []
  | a :: l => (a :: l.take (size - 1)) :: batches size (l.drop (size - 1))
termination_by l => l.length

@[simp] theorem batches_nil (size : Nat) : batches size ([] : List α) = [] := by
  rw [batches]

/-- Cutting a list into batches loses nothing and keeps the order. -/
@[simp] theorem flatten_batches (size : Nat) (l : List α) : (batches size l).flatten = l := by
  fun_induction batches size l with
  | case1 => rfl
  | case2 a l ih => simp [ih]

/-- What is made of each element is cut like the elements. -/
theorem batches_map (size : Nat) (f : α → β) (l : List α) :
    batches size (l.map f) = (batches size l).map (·.map f) := by
  fun_induction batches size l with
  | case1 => rw [List.map_nil, batches_nil, List.map_nil]
  | case2 a l ih => rw [List.map_cons, batches, ← List.map_drop, ih, ← List.map_take]; rfl

/-- Two lists made of one are cut so that each batch of the one stands beside that of the other. -/
theorem zip_batches_map (size : Nat) (f : α → β) (g : α → γ) (l : List α) :
    (batches size (l.map f)).zip (batches size (l.map g)) =
      (batches size l).map fun batch => (batch.map f, batch.map g) := by
  rw [batches_map, batches_map, List.zip_map']

end ConceptSpace.Sequence
