import Mathlib.Algebra.BigOperators.Group.Finset.Basic
import ConceptSpace.Facts.Change
import ConceptSpace.Proofs.Concept.Inside
import ConceptSpace.Proofs.Pattern.Mask
import ConceptSpace.Proofs.Storage.Bulk
import ConceptSpace.Proofs.Storage.Names

/-!
# What facts are stored as

A fact leaves *marks* in the table: its own key, an index entry for each mask and an edge for each
part; and it is counted under each mask. The table of a set of facts is determined by the marks and
counts of its members (`described`). Different facts leave different marks (`eq_of_mem_marks`), so
that the marks of one can be taken away without touching those of the others.
-/

namespace ConceptSpace.FactBase

open Storage

/-- A clean concept that memory can hold, so that its storage keys read back. -/
structure Storable (c : Concept) : Prop where
  /-- The concept is clean. -/
  clean : c.Clean
  /-- Its key has an offset for each of its bytes. -/
  fits : Key.FitsMemory c.key

/-- What is inside a concept is not longer than the concept. -/
theorem utf8ByteSize_key_le_of_mem_inside {a c : Concept} (h : a ∈ c.inside) :
    a.key.utf8ByteSize ≤ c.key.utf8ByteSize := by
  induction c with
  | atom => simp [Concept.inside] at h
  | compound ps ih =>
    obtain ⟨p, hp, h⟩ := Concept.mem_inside_iff.mp h
    have part : p.key.utf8ByteSize ≤ (Concept.key (.compound ps)).utf8ByteSize :=
      Concept.utf8ByteSize_key_le_of_mem_parts hp
    rcases h with rfl | h
    · exact part
    · exact (ih p hp h).trans part

theorem Storable.of_mem_inside {a c : Concept} (h : Storable c) (ha : a ∈ c.inside) :
    Storable a where
  clean := h.clean.of_mem_inside ha
  fits := Nat.lt_of_le_of_lt (utf8ByteSize_key_le_of_mem_inside ha) h.fits

/-! ## The marks of a fact -/

/-- The keys of the counters that a fact is counted under. -/
def counterKeys (c : Concept) : List String :=
  (indexEntries c).map (·.1)

/-- The keys under which a fact leaves the mark of presence. -/
def marks (c : Concept) : List String :=
  Key.fact c :: ((indexEntries c).map (·.2) ++ Key.containments c)

theorem mem_indexEntries_iff {c : Concept} {e : String × String} :
    e ∈ indexEntries c ↔ ∃ m ∈ c.masks, ∃ values, c.maskValues? m = some values ∧
      e = (Key.maskCount m, Key.maskMatch m values) := by
  simp only [indexEntries, List.mem_filterMap, Option.map_eq_some_iff]
  constructor
  · rintro ⟨m, hm, values, hv, rfl⟩
    exact ⟨m, hm, values, hv, rfl⟩
  · rintro ⟨m, hm, values, hv, rfl⟩
    exact ⟨m, hm, values, hv, rfl⟩

theorem mem_containments_iff {c : Concept} {key : String} :
    key ∈ Key.containments c ↔ ∃ i p, c.parts[i]? = some p ∧ key = Key.containment p i c := by
  simp only [Key.containments, List.mem_mapIdx]
  constructor
  · rintro ⟨i, hi, rfl⟩
    exact ⟨i, _, List.getElem?_eq_getElem hi, rfl⟩
  · rintro ⟨i, p, hp, rfl⟩
    obtain ⟨hi, rfl⟩ := List.getElem?_eq_some_iff.mp hp
    exact ⟨i, hi, rfl⟩

/-- A mark is the key of the fact, one of its index entries, or one of its edges. -/
theorem mem_marks_iff {c : Concept} {key : String} :
    key ∈ marks c ↔ key = Key.fact c ∨
      (∃ m ∈ c.masks, ∃ values, c.maskValues? m = some values ∧ key = Key.maskMatch m values) ∨
      ∃ i p, c.parts[i]? = some p ∧ key = Key.containment p i c := by
  have entries : key ∈ (indexEntries c).map (·.2) ↔ ∃ m ∈ c.masks, ∃ values,
      c.maskValues? m = some values ∧ key = Key.maskMatch m values := by
    simp only [List.mem_map, mem_indexEntries_iff]
    constructor
    · rintro ⟨_, ⟨m, hm, values, hv, rfl⟩, rfl⟩
      exact ⟨m, hm, values, hv, rfl⟩
    · rintro ⟨m, hm, values, hv, rfl⟩
      exact ⟨_, ⟨m, hm, values, hv, rfl⟩, rfl⟩
  rw [marks, List.mem_cons, List.mem_append, entries, mem_containments_iff]

theorem fact_mem_marks (c : Concept) : Key.fact c ∈ marks c := by
  simp [marks]

theorem ne_maskCount_of_mem_marks {c : Concept} {key : String} (h : key ∈ marks c) (m : Concept) :
    key ≠ Key.maskCount m := by
  rcases mem_marks_iff.mp h with rfl | ⟨n, -, values, -, rfl⟩ | ⟨i, p, -, rfl⟩
  · exact Key.fact_ne_maskCount c m
  · exact Key.maskMatch_ne_maskCount n values m
  · exact Key.containment_ne_maskCount p i c m

theorem exists_of_mem_counterKeys {c : Concept} {key : String} (h : key ∈ counterKeys c) :
    ∃ m ∈ c.masks, key = Key.maskCount m := by
  obtain ⟨e, he, rfl⟩ := List.mem_map.mp h
  obtain ⟨m, hm, values, -, rfl⟩ := mem_indexEntries_iff.mp he
  exact ⟨m, hm, rfl⟩

theorem not_mem_counterKeys_of_mem_marks {c d : Concept} {key : String} (h : key ∈ marks c) :
    key ∉ counterKeys d := by
  intro hk
  obtain ⟨m, -, rfl⟩ := exists_of_mem_counterKeys hk
  exact ne_maskCount_of_mem_marks h m rfl

namespace Storable

variable {c d : Concept}

theorem length_words_le (h : Storable c) : c.words.length ≤ Text.wordCount :=
  h.clean.length_words_le.trans (Nat.le_of_lt h.fits)

theorem exists_isEntry (h : Storable c) {m : Concept} (hm : m ∈ c.masks) :
    ∃ values, c.IsEntry m values :=
  h.clean.exists_isEntry h.length_words_le hm

theorem isEntry_of_maskValues? (h : Storable c) {m : Concept} (hm : m ∈ c.masks)
    {values : List Concept} (hv : c.maskValues? m = some values) : c.IsEntry m values := by
  obtain ⟨found, entry⟩ := h.exists_isEntry hm
  obtain rfl : found = values := Option.some.inj (entry.read.symm.trans hv)
  exact entry

theorem counterKeys_eq (h : Storable c) : counterKeys c = c.masks.map Key.maskCount := by
  have read : ∀ m ∈ c.masks, (c.maskValues? m).map (fun values =>
      (Key.maskCount m, Key.maskMatch m values)) =
        some (Key.maskCount m, Key.maskMatch m ((c.maskValues? m).getD [])) := by
    intro m hm
    obtain ⟨values, entry⟩ := h.exists_isEntry hm
    simp [entry.read]
  rw [counterKeys, indexEntries, List.filterMap_congr read, List.map_filterMap]
  exact congrFun List.filterMap_eq_map c.masks

theorem nodup_counterKeys (h : Storable c) : (counterKeys c).Nodup := by
  have inj : Function.Injective fun key => Key.maskCountStem ++ Key.encode key := fun j k e =>
    Key.encode_inj.mp (Key.append_left_inj e)
  have := (Concept.nodup_keys_masks c).map inj
  rw [List.map_map] at this
  rw [h.counterKeys_eq]
  exact this

/-- Different facts leave different marks. -/
theorem eq_of_mem_marks (hc : Storable c) (hd : Storable d) {key : String} (h : key ∈ marks c)
    (h' : key ∈ marks d) : c = d := by
  rcases mem_marks_iff.mp h with rfl | ⟨m, hm, values, hv, rfl⟩ | ⟨i, p, hp, rfl⟩ <;>
    rcases mem_marks_iff.mp h' with e | ⟨n, hn, others, ho, e⟩ | ⟨j, q, hq, e⟩
  · exact (hc.clean.key_inj hd.clean).mp (Key.fact_inj e)
  · exact absurd e (Key.fact_ne_maskMatch c n others)
  · exact absurd e (Key.fact_ne_containment c q j d)
  · exact absurd e.symm (Key.fact_ne_maskMatch d m values)
  · obtain ⟨mask, same⟩ := Key.maskMatch_inj e
    exact (hc.isEntry_of_maskValues? hm hv).eq (hd.isEntry_of_maskValues? hn ho) mask same
  · exact absurd e.symm (Key.containment_ne_maskMatch q j d m values)
  · exact absurd e.symm (Key.fact_ne_containment d p i c)
  · exact absurd e (Key.containment_ne_maskMatch p i c n others)
  · exact (hc.clean.key_inj hd.clean).mp (Key.containment_inj e).2.2

end Storable

/-! ## Several facts -/

/-- The keys of the entries that some facts get, by groups. -/
theorem mem_flatMap_marks_iff {cs : List Concept} {key : String} :
    key ∈ cs.flatMap marks ↔ key ∈ cs.map Key.fact ∨
      key ∈ (cs.flatMap indexEntries).map (·.2) ∨ key ∈ cs.flatMap Key.containments := by
  simp only [marks, List.mem_flatMap, List.mem_cons, List.mem_append, List.mem_map]
  constructor
  · rintro ⟨c, hc, rfl | ⟨e, he, rfl⟩ | hk⟩
    · exact .inl ⟨c, hc, rfl⟩
    · exact .inr (.inl ⟨e, ⟨c, hc, he⟩, rfl⟩)
    · exact .inr (.inr ⟨c, hc, hk⟩)
  · rintro (⟨c, hc, rfl⟩ | ⟨e, ⟨c, hc, he⟩, rfl⟩ | ⟨c, hc, hk⟩)
    · exact ⟨c, hc, .inl rfl⟩
    · exact ⟨c, hc, .inr (.inl ⟨e, he, rfl⟩)⟩
    · exact ⟨c, hc, .inr (.inr hk)⟩

theorem map_fst_flatMap_indexEntries (cs : List Concept) :
    (cs.flatMap indexEntries).map (·.1) = cs.flatMap counterKeys := by
  rw [List.map_flatMap]
  rfl

theorem not_mem_flatMap_marks_of_mem_counterKeys {cs : List Concept} {c : Concept} {key : String}
    (h : key ∈ counterKeys c) : key ∉ cs.flatMap marks := by
  intro hm
  obtain ⟨d, -, hm⟩ := List.mem_flatMap.mp hm
  exact not_mem_counterKeys_of_mem_marks hm h

/-! ## The table of a set of facts -/

/-- How often a key is counted by some facts. -/
def total (facts : Finset Concept) (key : String) : Nat :=
  ∑ c ∈ facts, (counterKeys c).count key

/-- What is stored for a count. -/
def counterValue : Nat → Option Value
  | 0 => none
  | n + 1 => some (Value.ofCount (UInt64.ofNat (n + 1)))

/-- What some facts are stored as. -/
def described (facts : Finset Concept) (key : String) : Option Value :=
  if ∃ c ∈ facts, key ∈ marks c then some Value.marker else counterValue (total facts key)

theorem counterValue_of_pos {n : Nat} (h : 0 < n) :
    counterValue n = some (Value.ofCount (UInt64.ofNat n)) := by
  obtain ⟨n, rfl⟩ := Nat.exists_eq_succ_of_ne_zero (Nat.pos_iff_ne_zero.mp h)
  rfl

/-- The table holds what its facts are stored as, and nothing else. -/
structure Indexed (t : Table) (facts : Finset Concept) : Prop where
  /-- The facts can be stored. -/
  storable : ∀ c ∈ facts, Storable c
  /-- The parts of facts are facts. -/
  closed : ∀ c ∈ facts, ∀ p ∈ c.parts, p ∈ facts
  /-- What is stored. -/
  lookup : ∀ key : String, t[key]? = described facts key

/-- How often facts without repetition count a key. -/
theorem count_flatMap_counterKeys {cs : List Concept} (nodup : cs.Nodup) (key : String) :
    (cs.flatMap counterKeys).count key = total cs.toFinset key := by
  rw [List.count_flatMap, total, List.sum_toFinset _ nodup]
  rfl

theorem total_eq_zero_of_mem_marks {facts : Finset Concept} {c : Concept} {key : String}
    (h : key ∈ marks c) : total facts key = 0 :=
  Finset.sum_eq_zero fun _ _ => List.count_eq_zero.mpr (not_mem_counterKeys_of_mem_marks h)

theorem exists_of_total_ne_zero {facts : Finset Concept} {key : String}
    (h : total facts key ≠ 0) : ∃ c ∈ facts, key ∈ counterKeys c := by
  obtain ⟨c, hc, hk⟩ := Finset.exists_ne_zero_of_sum_ne_zero h
  exact ⟨c, hc, List.count_pos_iff.mp (Nat.pos_of_ne_zero hk)⟩

theorem described_of_mem_marks {facts : Finset Concept} {c : Concept} {key : String}
    (hc : c ∈ facts) (h : key ∈ marks c) : described facts key = some Value.marker :=
  if_pos ⟨c, hc, h⟩

theorem described_maskCount (facts : Finset Concept) (m : Concept) :
    described facts (Key.maskCount m) = counterValue (total facts (Key.maskCount m)) :=
  if_neg fun ⟨_, _, h⟩ => ne_maskCount_of_mem_marks h m rfl

theorem described_of_mem_counterKeys (facts : Finset Concept) {c : Concept} {key : String}
    (h : key ∈ counterKeys c) : described facts key = counterValue (total facts key) := by
  obtain ⟨m, -, rfl⟩ := exists_of_mem_counterKeys h
  exact described_maskCount facts m

/-- A stored key is a mark of a fact, or the counter of a mask. -/
theorem exists_of_described_ne_none {facts : Finset Concept} {key : String}
    (h : described facts key ≠ none) :
    (∃ c ∈ facts, key ∈ marks c) ∨ ∃ c ∈ facts, key ∈ counterKeys c := by
  unfold described at h
  split at h
  case isTrue marked => exact .inl marked
  case isFalse =>
    refine .inr (exists_of_total_ne_zero fun zero => ?_)
    rw [zero] at h
    exact h rfl

theorem storedCount_counterValue (n : Nat) :
    storedCount (counterValue n) = .ok (UInt64.ofNat n) := by
  cases n with
  | zero => rfl
  | succ n => exact Value.count?_ofCount _

/-! ## Stored keys by stem -/

/-- A stored key is that of a fact, an index entry, an edge or a counter. -/
theorem exists_of_stored {facts : Finset Concept} {key : String}
    (stored : described facts key ≠ none) :
    (∃ c ∈ facts, key = Key.fact c) ∨
      (∃ c ∈ facts, ∃ m ∈ c.masks, ∃ values, c.maskValues? m = some values ∧
        key = Key.maskMatch m values) ∨
      (∃ c ∈ facts, ∃ i p, c.parts[i]? = some p ∧ key = Key.containment p i c) ∨
      ∃ m, key = Key.maskCount m := by
  rcases exists_of_described_ne_none stored with ⟨c, hc, hk⟩ | ⟨c, -, hk⟩
  · rcases mem_marks_iff.mp hk with rfl | ⟨m, hm, values, hv, rfl⟩ | ⟨i, p, hp, rfl⟩
    · exact .inl ⟨c, hc, rfl⟩
    · exact .inr (.inl ⟨c, hc, m, hm, values, hv, rfl⟩)
    · exact .inr (.inr (.inl ⟨c, hc, i, p, hp, rfl⟩))
  · obtain ⟨m, -, rfl⟩ := exists_of_mem_counterKeys hk
    exact .inr (.inr (.inr ⟨m, rfl⟩))

/-- A stored key under the stem of facts is the key of a fact. -/
theorem exists_of_factStem_prefix {facts : Finset Concept} {key : String}
    (stored : described facts key ≠ none) (h : Key.factStem.toList <+: key.toList) :
    ∃ c ∈ facts, key = Key.fact c := by
  rw [← String.append_empty (s := Key.factStem)] at h
  rcases exists_of_stored stored with fact | ⟨_, -, m, -, values, -, rfl⟩ | ⟨c, -, i, p, -, rfl⟩ |
    ⟨m, rfl⟩
  · exact fact
  · rw [Key.maskMatch, Key.maskMatches, String.append_assoc, String.append_assoc] at h
    exact absurd h (Key.not_prefix_append (by decide) (by decide) _ _)
  · simp only [Key.containment, String.append_assoc] at h
    exact absurd h (Key.not_prefix_append (by decide) (by decide) _ _)
  · exact absurd h (Key.not_prefix_append (by decide) (by decide) _ _)

/-- A stored key under the edges of a part is an edge from the part to a fact. -/
theorem exists_of_containmentsOf_prefix {facts : Finset Concept} {c : Concept} {key : String}
    (stored : described facts key ≠ none)
    (h : (Key.containmentsOf c).toList <+: key.toList) :
    ∃ d ∈ facts, ∃ i p, d.parts[i]? = some p ∧ p.key = c.key ∧ key = Key.containment p i d := by
  rw [Key.containmentsOf, String.append_assoc] at h
  rcases exists_of_stored stored with ⟨d, -, rfl⟩ | ⟨_, -, m, -, values, -, rfl⟩ |
    ⟨d, hd, i, p, hp, rfl⟩ | ⟨m, rfl⟩
  · exact absurd h (Key.not_prefix_append (by decide) (by decide) _ _)
  · rw [Key.maskMatch, Key.maskMatches, String.append_assoc, String.append_assoc] at h
    exact absurd h (Key.not_prefix_append (by decide) (by decide) _ _)
  · rw [← String.append_assoc] at h
    exact ⟨d, hd, i, p, hp, (Key.containmentsOf_prefix_iff.mp h).symm, rfl⟩
  · exact absurd h (Key.not_prefix_append (by decide) (by decide) _ _)

/-- A stored key under the index entries of a mask is the entry of a fact under this mask. -/
theorem exists_of_maskMatches_prefix {facts : Finset Concept} {m : Concept} {key : String}
    (stored : described facts key ≠ none) (h : (Key.maskMatches m).toList <+: key.toList) :
    ∃ c ∈ facts, ∃ n ∈ c.masks, ∃ values, c.maskValues? n = some values ∧ n.key = m.key ∧
      key = Key.maskMatch n values := by
  rw [Key.maskMatches, String.append_assoc] at h
  rcases exists_of_stored stored with ⟨c, -, rfl⟩ | ⟨c, hc, n, hn, values, hv, rfl⟩ |
    ⟨c, -, i, p, -, rfl⟩ | ⟨m, rfl⟩
  · exact absurd h (Key.not_prefix_append (by decide) (by decide) _ _)
  · rw [← String.append_assoc] at h
    exact ⟨c, hc, n, hn, values, hv, (Key.maskMatches_prefix_iff.mp h).symm, rfl⟩
  · simp only [Key.containment, String.append_assoc] at h
    exact absurd h (Key.not_prefix_append (by decide) (by decide) _ _)
  · exact absurd h (Key.not_prefix_append (by decide) (by decide) _ _)

namespace Indexed

variable {t : Table} {facts : Finset Concept}

theorem empty : Indexed ∅ ∅ where
  storable := by simp
  closed := by simp
  lookup key := by simp [described, total, counterValue]

/-- The keys of the table are those that are stored. -/
theorem mem_table_iff (h : Indexed t facts) {key : String} :
    key ∈ t ↔ described facts key ≠ none := by
  rw [Std.ExtTreeMap.mem_iff_isSome_getElem?, Option.isSome_iff_ne_none, h.lookup]

/-- A concept is stored if it is a fact by its key. -/
theorem contains_iff_exists (h : Indexed t facts) {d : Concept} :
    contains t d = true ↔ ∃ c ∈ facts, c.key = d.key := by
  rw [contains, Table.contains_eq_isSome, h.lookup, Option.isSome_iff_ne_none]
  constructor
  · intro stored
    have under : Key.factStem.toList <+: (Key.fact d).toList := by simp [Key.fact]
    obtain ⟨c, hc, e⟩ := exists_of_factStem_prefix stored under
    exact ⟨c, hc, (Key.fact_inj e).symm⟩
  · rintro ⟨c, hc, same⟩
    have e : Key.fact d = Key.fact c := by rw [Key.fact, Key.fact, same]
    rw [e, described_of_mem_marks hc (fact_mem_marks c)]
    simp

theorem contains_iff (h : Indexed t facts) {c : Concept} (hc : c.Clean) :
    contains t c = true ↔ c ∈ facts := by
  rw [h.contains_iff_exists]
  constructor
  · rintro ⟨d, hd, same⟩
    rwa [← ((h.storable d hd).clean.key_inj hc).mp same]
  · exact fun hc => ⟨c, hc, rfl⟩

/-- The facts are the clean concepts that are stored. -/
theorem mem_iff (h : Indexed t facts) {c : Concept} :
    c ∈ facts ↔ c.Clean ∧ contains t c = true := by
  constructor
  · exact fun hc => ⟨(h.storable c hc).clean, (h.contains_iff (h.storable c hc).clean).mpr hc⟩
  · exact fun ⟨clean, stored⟩ => (h.contains_iff clean).mp stored

theorem table_eq {t' : Table} (h : Indexed t facts) (h' : Indexed t' facts) : t = t' := by
  ext1 key
  rw [h.lookup, h'.lookup]

theorem storedCount_eq (h : Indexed t facts) (m : Concept) :
    storedCount t[Key.maskCount m]? = .ok (UInt64.ofNat (total facts (Key.maskCount m))) := by
  rw [h.lookup, described_maskCount, storedCount_counterValue]

end Indexed

end ConceptSpace.FactBase
