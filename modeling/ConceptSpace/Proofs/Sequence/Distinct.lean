import ConceptSpace.Sequence.Distinct

/-!
# Joined lists without repetition

Of two lists one after the other, the first of each key are those of the first list, and those of
the second whose keys the first one does not have (`distinctBy_append`). So it does not matter if
repetitions within each of the lists have been dropped before (`distinctBy_append_congr`).
-/

namespace ConceptSpace.Sequence

variable {α κ : Type} [Ord κ] {key : α → κ}

theorem distinctFrom_cons (seen : Std.TreeSet κ) (a : α) (l : List α) :
    distinctFrom key seen (a :: l) = if seen.contains (key a) then distinctFrom key seen l
      else a :: distinctFrom key (seen.insert (key a)) l := rfl

variable [Std.TransOrd κ] [Std.LawfulEqOrd κ]

/-- Keys that are known already only drop elements. -/
theorem distinctFrom_eq_filter {seen more : Std.TreeSet κ} {p : κ → Bool} {l : List α}
    (h : ∀ k, more.contains k = (seen.contains k || p k)) :
    distinctFrom key more l = (distinctFrom key seen l).filter fun a => !p (key a) := by
  induction l generalizing seen more with
  | nil => rfl
  | cons a l ih =>
    rw [distinctFrom_cons, distinctFrom_cons]
    cases known : seen.contains (key a) with
    | true =>
      rw [if_pos (by rw [h, known, Bool.true_or]), if_pos rfl]
      exact ih h
    | false =>
      rw [if_neg (by simp : ¬ false = true)]
      cases dropped : p (key a) with
      | true =>
        rw [if_pos (by rw [h, dropped, Bool.or_true]), List.filter_cons_of_neg (by simp [dropped])]
        refine ih fun k => ?_
        rw [h, Std.TreeSet.contains_insert]
        by_cases same : key a = k
        · simp [← same, dropped]
        · have other : (compare (key a) k == .eq) = false := by simpa using same
          rw [other, Bool.false_or]
      | false =>
        rw [if_neg (by rw [h, known, dropped]; simp), List.filter_cons_of_pos (by simp [dropped])]
        refine congrArg (a :: ·) (ih fun k => ?_)
        rw [Std.TreeSet.contains_insert, Std.TreeSet.contains_insert, h, Bool.or_assoc]

/-- What comes behind a list is compared with all keys of the list. -/
theorem exists_distinctFrom_append (key : α → κ) (seen : Std.TreeSet κ) (l m : List α) :
    ∃ more : Std.TreeSet κ, (∀ k, more.contains k = true ↔ seen.contains k = true ∨ k ∈ l.map key) ∧
      distinctFrom key seen (l ++ m) = distinctFrom key seen l ++ distinctFrom key more m := by
  induction l generalizing seen with
  | nil => exact ⟨seen, by simp, rfl⟩
  | cons a l ih =>
    rw [List.cons_append, distinctFrom_cons, distinctFrom_cons]
    split
    case isTrue known =>
      obtain ⟨more, keys, joined⟩ := ih seen
      refine ⟨more, fun k => ?_, joined⟩
      rw [keys, List.map_cons, List.mem_cons, ← or_assoc]
      refine or_congr_left ⟨.inl, ?_⟩
      rintro (old | rfl)
      · exact old
      · exact known
    case isFalse =>
      obtain ⟨more, keys, joined⟩ := ih (seen.insert (key a))
      refine ⟨more, fun k => ?_, congrArg (a :: ·) joined⟩
      rw [keys, List.map_cons, List.mem_cons, ← or_assoc, Std.TreeSet.contains_insert]
      refine or_congr_left ?_
      rw [Bool.or_eq_true, beq_iff_eq, Std.LawfulEqOrd.compare_eq_iff_eq, or_comm,
        @eq_comm _ (key a)]

theorem distinctFrom_of_nodup {seen : Std.TreeSet κ} {l : List α}
    (fresh : ∀ a ∈ l, seen.contains (key a) = false) (nodup : (l.map key).Nodup) :
    distinctFrom key seen l = l := by
  induction l generalizing seen with
  | nil => rfl
  | cons a l ih =>
    obtain ⟨first, rest⟩ := List.nodup_cons.mp nodup
    rw [distinctFrom_cons, fresh a (by simp), if_neg (by simp)]
    refine congrArg (a :: ·) (ih (fun b hb => ?_) rest)
    have other : key a ≠ key b := fun same => first (same ▸ List.mem_map_of_mem hb)
    rw [Std.TreeSet.contains_insert, fresh b (by simp [hb])]
    simpa using other

/-- Without repetition of keys, nothing is dropped. -/
theorem distinctBy_of_nodup {l : List α} (nodup : (l.map key).Nodup) : distinctBy key l = l :=
  distinctFrom_of_nodup (by simp) nodup

variable [DecidableEq κ]

theorem distinctBy_append (l m : List α) : distinctBy key (l ++ m) =
    distinctBy key l ++ (distinctBy key m).filter fun a => key a ∉ l.map key := by
  obtain ⟨more, keys, joined⟩ := exists_distinctFrom_append key ∅ l m
  have known : ∀ k, more.contains k =
      ((∅ : Std.TreeSet κ).contains k || decide (k ∈ l.map key)) := by
    intro k
    rw [Bool.eq_iff_iff, keys]
    simp
  rw [distinctBy, joined, distinctFrom_eq_filter known]
  refine congrArg (distinctFrom key ∅ l ++ ·) (List.filter_congr fun a _ => ?_)
  rw [decide_not]

/-- A list of keys that are there already adds nothing. -/
theorem distinctBy_append_of_subset {l m : List α} (h : ∀ a ∈ m, key a ∈ l.map key) :
    distinctBy key (l ++ m) = distinctBy key l := by
  rw [distinctBy_append, List.filter_eq_nil_iff.mpr, List.append_nil]
  intro a ha
  simpa using h a ((distinctBy_sublist key m).subset ha)

/-- The first of each key of a joined list depend on those of its parts only. -/
theorem distinctBy_append_congr {l l' m m' : List α} (hl : distinctBy key l = distinctBy key l')
    (hm : distinctBy key m = distinctBy key m') :
    distinctBy key (l ++ m) = distinctBy key (l' ++ m') := by
  rw [distinctBy_append, distinctBy_append, hl, hm]
  refine congrArg (distinctBy key l' ++ ·) (List.filter_congr fun a _ => ?_)
  have same : key a ∈ l.map key ↔ key a ∈ l'.map key := by
    rw [← mem_keys_distinctBy, hl, mem_keys_distinctBy]
  simp only [same]

end ConceptSpace.Sequence
