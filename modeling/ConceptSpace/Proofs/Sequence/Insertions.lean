import Std.Data.ExtTreeMap

/-!
# Insertions one after the other

What a map holds after pairs have been put into it from left to right.
-/

namespace ConceptSpace.Sequence

variable {α : Type} {m : Std.ExtTreeMap String α} {key : String}

/-- A name that no pair has keeps its value. -/
theorem getElem?_foldl_insert_of_not_mem {pairs : List (String × α)}
    (h : key ∉ pairs.map (·.1)) :
    (pairs.foldl (fun m (key, value) => m.insert key value) m)[key]? = m[key]? := by
  induction pairs generalizing m with
  | nil => rfl
  | cons pair pairs ih =>
    simp only [List.map_cons, List.mem_cons, not_or] at h
    rw [List.foldl_cons, ih h.2, Std.ExtTreeMap.getElem?_insert, if_neg]
    simpa using Ne.symm h.1

/-- A name that all its pairs give one value has that value. -/
theorem getElem?_foldl_insert_of_mem {pairs : List (String × α)} {value : α}
    (h : (key, value) ∈ pairs) (unique : ∀ v, (key, v) ∈ pairs → v = value) :
    (pairs.foldl (fun m (key, value) => m.insert key value) m)[key]? = some value := by
  induction pairs generalizing m with
  | nil => simp at h
  | cons pair pairs ih =>
    rw [List.foldl_cons]
    by_cases hm : key ∈ pairs.map (·.1)
    · obtain ⟨⟨k, v⟩, hv, rfl⟩ := List.mem_map.mp hm
      obtain rfl : v = value := unique v (by simp [hv])
      exact ih hv fun w hw => unique w (by simp [hw])
    · rcases List.mem_cons.mp h with rfl | h
      · rw [getElem?_foldl_insert_of_not_mem hm, Std.ExtTreeMap.getElem?_insert, if_pos (by simp)]
      · exact absurd (List.mem_map.mpr ⟨_, h, rfl⟩) hm

end ConceptSpace.Sequence
