import ConceptSpace.Storage.Table
import ConceptSpace.Proofs.Text.ByteOrder

/-!
# Listings as filters

A listing is answered by a scan from its lower bound to the first key out of range. Since the keys
that start with a stem stand together in the order of keys, the scan finds every entry in range and
nothing else (`list_eq_filter`). Ranges and the order are those of the bytes of keys
(`list_takes_admitted`).
-/

namespace ConceptSpace.Storage

/-! ## The order of keys -/

/-- What lies between a stem and a text that starts with it starts with it, too. -/
theorem isPrefix_of_not_lt {stem x y : List Char} (hx : ¬ x < stem) (hy : ¬ y < x)
    (h : stem <+: y) : stem <+: x := by
  induction stem generalizing x y with
  | nil => exact List.nil_prefix
  | cons s stem ih =>
    obtain ⟨rest, rfl⟩ := h
    cases x with
    | nil => exact absurd (List.nil_lt_cons s stem) hx
    | cons a x =>
      rw [List.cons_append] at hy
      rw [List.cons_lt_cons_iff, not_or, not_and] at hx hy
      have same : a = s := Char.ltTrichotomous.trichotomous a s hx.1 hy.1
      subst same
      exact List.cons_prefix_cons.mpr ⟨rfl, ih (hx.2 rfl) (hy.2 rfl) (List.prefix_append _ _)⟩

namespace Listing

theorem isUnder_iff {l : Listing} {key : String} :
    l.isUnder key = true ↔ l.stem.toList <+: key.toList := by
  simp [isUnder, List.isPrefixOf_iff_prefix]

theorem stem_le_of_isUnder {l : Listing} {key : String} (h : l.isUnder key = true) :
    l.stem ≤ key :=
  (isUnder_iff.mp h).le

/-- Whether a key is in range, its lower bound aside. -/
def continues (l : Listing) (key : String) : Bool :=
  l.isUnder key && l.isBeforeStop key

theorem covers_of_lt {l : Listing} {key : String} (h : key < l.lowerBound) :
    l.covers key = false := by
  cases hu : l.isUnder key with
  | false => simp [covers, hu]
  | true =>
    have low := stem_le_of_isUnder hu
    unfold lowerBound at h
    split at h
    case h_1 => exact absurd h (String.not_lt.mpr low)
    case h_2 start e =>
      split at h
      · have before : ¬ start ≤ key := String.not_le.mpr h
        simp [covers, isFromStart, e, before]
      · exact absurd h (String.not_lt.mpr low)

theorem stem_le_lowerBound (l : Listing) : l.stem ≤ l.lowerBound := by
  unfold lowerBound
  split
  · exact String.le_refl _
  · split
    case isTrue h => exact Std.le_of_lt h
    case isFalse => exact String.le_refl _

/-- Behind the lower bound a key is in range if the scan has not ended before it. -/
theorem covers_of_le {l : Listing} {key : String} (h : l.lowerBound ≤ key) :
    l.covers key = l.continues key := by
  have fromStart : l.isFromStart key = true := by
    unfold isFromStart
    unfold lowerBound at h
    split
    · rfl
    case h_2 start e =>
      rw [e] at h
      simp only at h
      split at h
      · simpa using h
      case isFalse hn => simpa using String.le_trans (String.not_lt.mp hn) h
  simp [covers, continues, fromStart]

/-- The keys at which the scan goes on have no gap. -/
theorem continues_of_le {l : Listing} {x y : String} (low : l.lowerBound ≤ x) (h : x ≤ y)
    (hy : l.continues y = true) : l.continues x = true := by
  simp only [continues, Bool.and_eq_true] at hy ⊢
  refine ⟨isUnder_iff.mpr ?_, ?_⟩
  · have stem_le : l.stem ≤ x := String.le_trans l.stem_le_lowerBound low
    exact isPrefix_of_not_lt (String.not_lt.mpr stem_le) (String.not_lt.mpr h) (isUnder_iff.mp hy.1)
  · have hy := hy.2
    unfold isBeforeStop at hy ⊢
    split
    · rfl
    case h_2 stop e =>
      rw [e] at hy
      simp only [decide_eq_true_eq] at hy ⊢
      exact Std.lt_of_le_of_lt h hy

/-- Whether a key is in range is decided by its bytes. -/
theorem covers_iff {l : Listing} {key : String} : l.covers key = true ↔
    Text.bytesOf l.stem <+: Text.bytesOf key ∧
      (∀ start, l.start = some start → Text.bytesOf start ≤ Text.bytesOf key) ∧
        ∀ stop, l.stop = some stop → Text.bytesOf key < Text.bytesOf stop := by
  have fromStart : l.isFromStart key = true ↔ ∀ start, l.start = some start → start ≤ key := by
    unfold isFromStart
    cases l.start <;> simp
  have beforeStop : l.isBeforeStop key = true ↔ ∀ stop, l.stop = some stop → key < stop := by
    unfold isBeforeStop
    cases l.stop <;> simp
  simp only [covers, Bool.and_eq_true, isUnder_iff, fromStart, beforeStop, and_assoc,
    Text.bytesOf_isPrefix_iff, Text.bytesOf_le_iff, Text.bytesOf_lt_iff]

end Listing

namespace Table

variable {α : Type}

/-- Entries in the order of their keys. -/
def Ascending (entries : List (String × α)) : Prop :=
  entries.Pairwise fun a b => a.1 < b.1

theorem ascending_toList (t : Table) : Ascending t.toList :=
  t.ordered_keys_toList.imp fun h => compareOfLessAndEq_eq_lt.mp h

/-- Behind the lower bound the scan takes what is in range. -/
theorem takeWhile_continues {l : Listing} {entries : List (String × α)}
    (ascending : Ascending entries) (low : ∀ e ∈ entries, l.lowerBound ≤ e.1) :
    entries.takeWhile (fun e => l.continues e.1) = entries.filter fun e => l.covers e.1 := by
  induction entries with
  | nil => rfl
  | cons e entries ih =>
    obtain ⟨first, ascending⟩ := List.pairwise_cons.mp ascending
    have ih := ih ascending fun f hf => low f (by simp [hf])
    have he := Listing.covers_of_le (low e (by simp))
    cases hc : l.continues e.1 with
    | true => simp [hc, he, ih]
    | false =>
      have rest : ∀ f ∈ entries, l.covers f.1 = false := by
        intro f hf
        rw [Listing.covers_of_le (low f (by simp [hf]))]
        cases hcf : l.continues f.1 with
        | false => rfl
        | true =>
          have := Listing.continues_of_le (low e (by simp)) (Std.le_of_lt (first f hf)) hcf
          rw [hc] at this
          exact this.symm
      simpa [hc, he] using rest

theorem scan_eq_filter {l : Listing} {entries : List (String × α)} (ascending : Ascending entries) :
    (entries.dropWhile fun e => e.1 < l.lowerBound).takeWhile (fun e => l.continues e.1) =
      entries.filter fun e => l.covers e.1 := by
  induction entries with
  | nil => rfl
  | cons e entries ih =>
    have ascending' := (List.pairwise_cons.mp ascending).2
    by_cases h : e.1 < l.lowerBound
    · rw [List.dropWhile_cons_of_pos (by simpa using h), ih ascending']
      simp [Listing.covers_of_lt h]
    · have low : ∀ f ∈ e :: entries, l.lowerBound ≤ f.1 := by
        intro f hf
        rcases List.mem_cons.mp hf with rfl | hf
        · exact String.not_lt.mp h
        · have := (List.pairwise_cons.mp ascending).1 f hf
          exact String.le_trans (String.not_lt.mp h) (Std.le_of_lt this)
      rw [List.dropWhile_cons_of_neg (by simpa using h)]
      exact takeWhile_continues ascending low

/-- A listing gives the entries in range, in the order of their keys, up to its limit. -/
theorem list_eq_filter (t : Table) (l : Listing) :
    t.list l = Listing.cut l.limit (t.toList.filter fun e => l.covers e.1) :=
  congrArg (Listing.cut l.limit) (scan_eq_filter t.ascending_toList)

/-- The scan that answers a listing gives the first of the entries that a search through the whole
table would give, up to the limit. The table is searched in the order of the bytes of its keys, and
the bytes of a key decide whether it is in range: they start with the stem, they are not before the
first key, and they are before the last one. -/
theorem list_takes_admitted (t : Table) (l : Listing) :
    t.list l = Listing.cut l.limit (t.toList.filter fun e => l.covers e.1) ∧
      (t.toList.Pairwise fun a b => Text.bytesOf a.1 < Text.bytesOf b.1) ∧
      (∀ key value, (key, value) ∈ t.toList ↔ t[key]? = some value) ∧
      ∀ key, l.covers key = true ↔ Text.bytesOf l.stem <+: Text.bytesOf key ∧
        (∀ start, l.start = some start → Text.bytesOf start ≤ Text.bytesOf key) ∧
          ∀ stop, l.stop = some stop → Text.bytesOf key < Text.bytesOf stop := by
  refine ⟨t.list_eq_filter l, ?_, fun key value => ?_, fun key => Listing.covers_iff⟩
  · exact t.ascending_toList.imp fun h => Text.bytesOf_lt_iff.mpr h
  · exact Std.ExtTreeMap.mem_toList_iff_getElem?_eq_some

/-! ## Listings by stem -/

theorem listKeys_stem (t : Table) (stem : String) :
    t.listKeys { stem } = t.keys.filter fun key => stem.toList.isPrefixOf key.toList := by
  rw [listKeys, list_eq_filter, ← Std.ExtTreeMap.map_fst_toList_eq_keys, List.filter_map]
  refine congrArg (List.map Prod.fst) (List.filter_congr fun e _ => ?_)
  simp [Listing.covers, Listing.isUnder, Listing.isFromStart, Listing.isBeforeStop]

theorem mem_listKeys_stem {t : Table} {stem key : String} :
    key ∈ t.listKeys { stem } ↔ key ∈ t ∧ stem.toList <+: key.toList := by
  rw [listKeys_stem, List.mem_filter, Std.ExtTreeMap.mem_keys, List.isPrefixOf_iff_prefix]

theorem nodup_listKeys_stem (t : Table) (stem : String) : (t.listKeys { stem }).Nodup := by
  rw [listKeys_stem]
  exact t.nodup_keys.filter _

theorem length_listKeys_stem_le (t : Table) (stem : String) :
    (t.listKeys { stem }).length ≤ t.size := by
  rw [listKeys_stem, ← Std.ExtTreeMap.length_keys]
  exact List.length_filter_le _ _

/-- A listing is cut out of the listing by stem. -/
theorem listKeys_eq (t : Table) (l : Listing) :
    t.listKeys l = Listing.cut l.limit ((t.listKeys { stem := l.stem }).filter fun key =>
      l.isFromStart key && l.isBeforeStop key) := by
  have covers : ∀ key, l.covers key = (l.stem.toList.isPrefixOf key.toList &&
      (l.isFromStart key && l.isBeforeStop key)) := fun key => by
    rw [Listing.covers, Listing.isUnder, Bool.and_assoc]
  rw [listKeys_stem, List.filter_filter, listKeys, list_eq_filter,
    ← Std.ExtTreeMap.map_fst_toList_eq_keys, List.filter_map]
  simp only [covers, Listing.cut, Function.comp_def, Bool.and_comm]
  cases l.limit with
  | none => rfl
  | some n => rw [List.map_take]

/-- A listing by stem is in the order of keys. -/
theorem listKeys_stem_pairwise (t : Table) (stem : String) :
    (t.listKeys { stem }).Pairwise (· < ·) := by
  rw [listKeys_stem]
  refine List.Pairwise.filter _ ?_
  rw [← Std.ExtTreeMap.map_fst_toList_eq_keys, List.pairwise_map]
  exact t.ascending_toList

end Table

end ConceptSpace.Storage
