import ConceptSpace.Proofs.Facts.Index

/-!
# Adding facts

Adding clean concepts to a table that holds what its facts are stored as gives the table of these
facts, the concepts, and all that is inside them (`Indexed.add`). What is stored for each key is
followed through the four groups of writes; the counters are raised by what the new facts count.
-/

namespace ConceptSpace.FactBase

open Storage

/-! ## Reading and writing in batches -/

/-- The choice of stored or missing concepts does not depend on the batches. -/
theorem select_eq_filter (base : FactBase) (stored : Bool) (t : Table) (cs : List Concept) :
    base.select stored t cs = cs.filter fun c => contains t c == stored := by
  have batch : ∀ cs : List Concept,
      ((cs.zip (t.getAll (cs.map Key.fact))).filterMap fun e =>
        if e.2.isSome == stored then some e.1 else none) =
          cs.filter fun c => contains t c == stored := by
    intro cs
    induction cs with
    | nil => rfl
    | cons c cs ih =>
      have value : t[Key.fact c]?.isSome = contains t c := (Table.contains_eq_isSome t _).symm
      simp only [Table.getAll, List.map_cons, List.zip_cons_cons] at ih ⊢
      rw [List.filterMap_cons, List.filter_cons, ih, value]
      cases contains t c == stored <;> rfl
  have aligned := Sequence.zip_batches_map base.batchSize id Key.fact cs
  rw [List.map_id] at aligned
  rw [select, aligned, List.flatMap_map, List.flatMap_def]
  conv_rhs => rw [← Sequence.flatten_batches base.batchSize cs, List.filter_flatten]
  refine congrArg List.flatten (List.map_congr_left fun group _ => ?_)
  rw [← batch group, List.map_id]

theorem mem_missing {base : FactBase} {t : Table} {cs : List Concept} {c : Concept} :
    c ∈ base.missing t cs ↔ c ∈ cs ∧ contains t c = false := by
  rw [missing, select_eq_filter, List.mem_filter]
  simp

theorem add_nil (base : FactBase) (t : Table) : base.add [] t = (.ok [], t) := by
  have none : base.missing t (Concept.distinct []) = [] :=
    List.eq_nil_iff_forall_not_mem.mpr fun c hc => absurd (mem_missing.mp hc).1 List.not_mem_nil
  have new : base.newFacts t [] = [] := by simp [newFacts, none]
  simp [add, new]

theorem mark_eq (base : FactBase) (t : Table) (keys : List String) :
    base.mark t keys = t.putAll (keys.map (·, Value.marker)) :=
  Table.foldl_putAll_batches ..

theorem getElem?_mark (base : FactBase) (t : Table) (keys : List String) (key : String) :
    (base.mark t keys)[key]? = if key ∈ keys then some Value.marker else t[key]? := by
  rw [mark_eq]
  split
  case isTrue h =>
    refine Table.getElem?_putAll_of_mem (List.mem_map.mpr ⟨key, h, rfl⟩) fun v hv => ?_
    obtain ⟨_, -, e⟩ := List.mem_map.mp hv
    exact (Prod.mk.inj e).2.symm
  case isFalse h =>
    exact Table.getElem?_putAll_of_not_mem (by simpa using h)

/-! ## Counting -/

/-- How a tally goes on from counts that have been made. -/
theorem foldl_tally (keys : List String) (counts : Std.ExtTreeMap String UInt64) (key : String) :
    let result := keys.foldl (fun (counts : Std.ExtTreeMap String UInt64) key =>
      counts.insert key (counts.getD key 0 + 1)) counts
    (key ∈ result ↔ key ∈ counts ∨ key ∈ keys) ∧
      result.getD key 0 = counts.getD key 0 + UInt64.ofNat (keys.count key) := by
  induction keys generalizing counts with
  | nil => simp
  | cons k keys ih =>
    obtain ⟨mem, value⟩ := ih (counts.insert k (counts.getD k 0 + 1))
    constructor
    · rw [List.foldl_cons]
      refine mem.trans ?_
      simp only [Std.ExtTreeMap.mem_insert, Std.compare_eq_iff_eq, List.mem_cons]
      tauto
    · rw [List.foldl_cons]
      refine value.trans ?_
      rw [Std.ExtTreeMap.getD_insert, List.count_cons]
      by_cases e : k = key
      · subst e
        simp [UInt64.ofNat_add, UInt64.add_assoc, UInt64.add_comm 1]
      · simp [e]

/-- A tally lists each key of the list, with how often it occurs. -/
theorem mem_tally_iff {keys : List String} {key : String} {n : UInt64} :
    (key, n) ∈ tally keys ↔ key ∈ keys ∧ n = UInt64.ofNat (keys.count key) := by
  obtain ⟨mem, value⟩ := foldl_tally keys ∅ key
  rw [tally, Std.ExtTreeMap.mem_toList_iff_getElem?_eq_some]
  rw [Std.ExtTreeMap.mem_iff_isSome_getElem?, Option.isSome_iff_exists] at mem
  rw [Std.ExtTreeMap.getD_eq_getD_getElem?] at value
  constructor
  · intro found
    rw [found] at value
    exact ⟨by simpa using mem.mp ⟨n, found⟩, by simpa using value⟩
  · rintro ⟨hk, rfl⟩
    obtain ⟨m, found⟩ := mem.mpr (.inr hk)
    rw [found] at value ⊢
    exact congrArg some (by simpa using value)

theorem map_fst_tally_nodup (keys : List String) : ((tally keys).map (·.1)).Nodup := by
  rw [tally, Std.ExtTreeMap.map_fst_toList_eq_keys]
  exact Std.ExtTreeMap.nodup_keys

/-- The counters are raised one after the other, whatever the batches. -/
theorem raised_eq_mapM (base : FactBase) (t : Table) (amounts : List (String × UInt64)) :
    base.raised t amounts = amounts.mapM fun e => do
      return (e.1, Value.ofCount ((← storedCount t[e.1]?) + e.2)) := by
  let raise : String × UInt64 → Except Storage.Error (String × Value) := fun e => do
    return (e.1, Value.ofCount ((← storedCount t[e.1]?) + e.2))
  have batch : ∀ group : List (String × UInt64),
      ((((group.map (·.1)).zip (group.map (·.2))).zip (t.getAll (group.map (·.1)))).mapM fun e => do
        return (e.1.1, Value.ofCount ((← storedCount e.2) + e.1.2))) = group.mapM raise := by
    intro group
    induction group with
    | nil => rfl
    | cons e group ih =>
      simp only [Table.getAll, List.map_cons, List.zip_cons_cons, List.map_map] at ih ⊢
      rw [List.mapM_cons, List.mapM_cons, ih]
  rw [raised, List.unzip_eq_map]
  simp only [Sequence.zip_batches_map]
  rw [List.mapM_map]
  refine (congrArg (· >>= _) (Sequence.mapM_congr fun group _ => batch group)).trans ?_
  conv_rhs => rw [← Sequence.flatten_batches base.batchSize amounts]
  exact (Sequence.mapM_flatten raise _).symm

/-- If the counters can be read, each is raised by its amount. -/
theorem raised_eq_ok {base : FactBase} {t : Table} {amounts : List (String × UInt64)}
    (current : String → UInt64) (h : ∀ e ∈ amounts, storedCount t[e.1]? = .ok (current e.1)) :
    base.raised t amounts =
      .ok (amounts.map fun e => (e.1, Value.ofCount (current e.1 + e.2))) := by
  rw [raised_eq_mapM]
  refine Sequence.mapM_eq_ok fun e he => ?_
  rw [h e he]
  rfl

/-! ## The new facts -/

theorem contains_eq_false_of_mem_newFacts {base : FactBase} {cs : List Concept} {t : Table}
    {c : Concept} (h : c ∈ base.newFacts t cs) : contains t c = false := by
  unfold newFacts at h
  simp only at h
  split at h
  · simp at h
  · rcases List.mem_append.mp ((Sequence.distinctBy_sublist _ _).subset h) with h | h <;>
      exact (mem_missing.mp h).2

namespace Indexed

variable {base : FactBase} {t : Table} {facts : Finset Concept} {cs : List Concept}

/-- The new facts are the concepts and what is inside them, as far as not stored before. -/
theorem mem_newFacts (h : Indexed t facts) (clean : ∀ c ∈ cs, c.Clean) {a : Concept} :
    a ∈ base.newFacts t cs ↔ a ∉ facts ∧ ∃ c ∈ cs, a = c ∨ a ∈ c.inside := by
  let roots := base.missing t (Concept.distinct cs)
  have isRoot : ∀ r, r ∈ roots ↔ r ∈ cs ∧ r ∉ facts := by
    intro r
    rw [mem_missing, Concept.mem_distinct clean]
    refine and_congr_right fun hr => ?_
    rw [← h.contains_iff (clean r hr), Bool.not_eq_true]
  have cleanRoots : ∀ r ∈ roots, r.Clean := fun r hr => clean r ((isRoot r).mp hr).1
  have cleanInner : ∀ a ∈ base.missing t (Concept.deepParts roots), a.Clean := fun a ha =>
    Concept.clean_of_mem_deepParts cleanRoots a (mem_missing.mp ha).1
  have e : base.newFacts t cs =
      Concept.distinct (roots ++ base.missing t (Concept.deepParts roots)) := by
    unfold newFacts
    simp only
    split
    case isTrue none =>
      have none : roots = [] := List.isEmpty_iff.mp none
      rw [none, missing, select_eq_filter]
      rfl
    case isFalse => rfl
  rw [e, Concept.mem_distinct fun c hc =>
      (List.mem_append.mp hc).elim (cleanRoots c) (cleanInner c),
    List.mem_append, isRoot, mem_missing, Concept.mem_deepParts cleanRoots]
  have inner : ∀ c ∈ facts, ∀ a ∈ c.inside, a ∈ facts := fun c hc a ha =>
    Concept.mem_of_mem_inside h.closed hc ha
  constructor
  · rintro (⟨hc, new⟩ | ⟨⟨r, hr, ha⟩, new⟩)
    · exact ⟨new, a, hc, .inl rfl⟩
    · have ca := (cleanRoots r hr).of_mem_inside ha
      refine ⟨fun stored => ?_, r, ((isRoot r).mp hr).1, .inr ha⟩
      rw [(h.contains_iff ca).mpr stored] at new
      exact absurd new (by simp)
  · rintro ⟨new, c, hc, rfl | ha⟩
    · exact .inl ⟨hc, new⟩
    · have ca := (clean c hc).of_mem_inside ha
      refine .inr ⟨⟨c, (isRoot c).mpr ⟨hc, fun stored => new (inner c stored a ha)⟩, ha⟩, ?_⟩
      rw [← Bool.not_eq_true, h.contains_iff ca]
      exact new

theorem nodup_newFacts (base : FactBase) (t : Table) (cs : List Concept) :
    (base.newFacts t cs).Nodup := by
  unfold newFacts
  simp only
  split
  · exact List.nodup_nil
  · exact Concept.nodup_distinct _

end Indexed

/-! ## The table after adding -/

/-- The counts of facts that are not among others add up. -/
theorem total_union {facts more : Finset Concept} (h : Disjoint facts more) (key : String) :
    total (facts ∪ more) key = total facts key + total more key :=
  Finset.sum_union h

/-- What facts and new ones are stored as, read off what the facts are stored as. -/
theorem described_union {facts : Finset Concept} {added : List Concept} (nodup : added.Nodup)
    (new : ∀ a ∈ added, a ∉ facts) (key : String) :
    described (facts ∪ added.toFinset) key =
      if key ∈ added.flatMap marks then some Value.marker
      else if key ∈ added.flatMap counterKeys then
        counterValue (total facts key + (added.flatMap counterKeys).count key)
      else described facts key := by
  have disjoint : Disjoint facts added.toFinset :=
    Finset.disjoint_right.mpr fun a ha => new a (List.mem_toFinset.mp ha)
  split
  case isTrue h =>
    obtain ⟨c, hc, hk⟩ := List.mem_flatMap.mp h
    exact described_of_mem_marks (by simp [hc]) hk
  case isFalse unmarked =>
    split
    case isTrue h =>
      obtain ⟨c, -, hk⟩ := List.mem_flatMap.mp h
      rw [described_of_mem_counterKeys _ hk, total_union disjoint, count_flatMap_counterKeys nodup]
    case isFalse uncounted =>
      have zero : total added.toFinset key = 0 := by
        rw [← count_flatMap_counterKeys nodup, List.count_eq_zero]
        exact uncounted
      have marked : (∃ c ∈ facts ∪ added.toFinset, key ∈ marks c) ↔ ∃ c ∈ facts, key ∈ marks c := by
        constructor
        · rintro ⟨c, hc, hk⟩
          rcases Finset.mem_union.mp hc with hc | hc
          · exact ⟨c, hc, hk⟩
          · exact absurd (List.mem_flatMap.mpr ⟨c, List.mem_toFinset.mp hc, hk⟩) unmarked
        · rintro ⟨c, hc, hk⟩
          exact ⟨c, Finset.mem_union_left _ hc, hk⟩
      simp only [described, marked, total_union disjoint, zero, Nat.add_zero]

namespace Indexed

variable {base : FactBase} {t : Table} {facts : Finset Concept}

theorem storedCount_mark_mark (h : Indexed t facts) (added : List Concept) {c : Concept}
    {key : String} (hk : key ∈ counterKeys c) :
    storedCount (base.mark (base.mark t (added.map Key.fact))
      ((added.flatMap indexEntries).map (·.2)))[key]? = .ok (UInt64.ofNat (total facts key)) := by
  have unmarked : key ∉ added.flatMap marks := not_mem_flatMap_marks_of_mem_counterKeys hk
  rw [mem_flatMap_marks_iff, not_or, not_or] at unmarked
  rw [getElem?_mark, if_neg unmarked.2.1, getElem?_mark, if_neg unmarked.1, h.lookup,
    described_of_mem_counterKeys _ hk, storedCount_counterValue]

/-- What is stored under the counters after new facts have been counted. -/
theorem getElem?_putAll_raised (t : Table) (facts : Finset Concept) (keys : List String)
    (key : String) :
    (t.putAll ((tally keys).map fun e =>
        (e.1, Value.ofCount (UInt64.ofNat (total facts e.1) + e.2))))[key]? =
      if key ∈ keys then counterValue (total facts key + keys.count key) else t[key]? := by
  split
  case isTrue hk =>
    rw [counterValue_of_pos (by have := List.count_pos_iff.mpr hk; omega), UInt64.ofNat_add]
    refine Table.getElem?_putAll_of_mem (List.mem_map.mpr ⟨_, mem_tally_iff.mpr ⟨hk, rfl⟩, rfl⟩) ?_
    intro v hv
    obtain ⟨⟨k, n⟩, he, e⟩ := List.mem_map.mp hv
    obtain ⟨rfl, rfl⟩ := Prod.mk.inj e
    rw [(mem_tally_iff.mp he).2]
  case isFalse hk =>
    refine Table.getElem?_putAll_of_not_mem fun hm => hk ?_
    rw [List.map_map] at hm
    obtain ⟨⟨k, n⟩, he, rfl⟩ := List.mem_map.mp hm
    exact (mem_tally_iff.mp he).1

/-- Adding clean concepts succeeds, and gives the table of the facts and the new ones. -/
theorem add (h : Indexed t facts) {cs : List Concept} (clean : ∀ c ∈ cs, c.Clean)
    (base : FactBase) :
    (base.add cs t).1 = .ok (base.newFacts t cs) ∧
      ∀ key : String, (base.add cs t).2[key]? =
        described (facts ∪ (base.newFacts t cs).toFinset) key := by
  generalize hadded : base.newFacts t cs = added
  have nodup : added.Nodup := hadded ▸ nodup_newFacts base t cs
  have new : ∀ a ∈ added, a ∉ facts := fun a ha => by
    rw [← hadded, h.mem_newFacts clean] at ha
    exact ha.1
  unfold FactBase.add
  simp only [hadded]
  split
  case isTrue none =>
    obtain rfl : added = [] := List.isEmpty_iff.mp none
    exact ⟨rfl, by simpa using h.lookup⟩
  case isFalse =>
    have current : ∀ e ∈ tally ((added.flatMap indexEntries).map (·.1)),
        storedCount (base.mark (base.mark t (added.map Key.fact))
          ((added.flatMap indexEntries).map (·.2)))[e.1]? =
            .ok (UInt64.ofNat (total facts e.1)) := by
      rintro ⟨key, n⟩ he
      have hk := (mem_tally_iff.mp he).1
      rw [map_fst_flatMap_indexEntries] at hk
      obtain ⟨c, -, hk⟩ := List.mem_flatMap.mp hk
      exact h.storedCount_mark_mark added hk
    rw [raised_eq_ok (fun key => UInt64.ofNat (total facts key)) current]
    refine ⟨rfl, fun key => ?_⟩
    simp only
    rw [getElem?_mark, Table.foldl_putAll_batches, getElem?_putAll_raised, getElem?_mark,
      getElem?_mark, h.lookup, described_union nodup new, map_fst_flatMap_indexEntries]
    simp only [mem_flatMap_marks_iff]
    by_cases counted : key ∈ added.flatMap counterKeys
    · obtain ⟨c, -, hk⟩ := List.mem_flatMap.mp counted
      have unmarked : key ∉ added.flatMap marks := not_mem_flatMap_marks_of_mem_counterKeys hk
      rw [mem_flatMap_marks_iff, not_or, not_or] at unmarked
      simp only [unmarked.1, unmarked.2.1, unmarked.2.2, counted, if_true, if_false, or_self]
    · simp only [counted, if_false]
      by_cases edge : key ∈ added.flatMap Key.containments
      · simp [edge]
      · by_cases entry : key ∈ (added.flatMap indexEntries).map (·.2)
        · simp only [edge, entry, if_true, if_false, true_or, or_true]
        · simp only [edge, entry, if_false, or_false]

/-- The table after adding concepts holds the facts and the new ones. -/
theorem indexed_add (h : Indexed t facts) {cs : List Concept} (storable : ∀ c ∈ cs, Storable c)
    (base : FactBase) :
    Indexed (base.add cs t).2 (facts ∪ (base.newFacts t cs).toFinset) := by
  have clean : ∀ c ∈ cs, c.Clean := fun c hc => (storable c hc).clean
  refine ⟨fun c hc => ?_, fun c hc p hp => ?_, (h.add clean base).2⟩
  · rcases Finset.mem_union.mp hc with hc | hc
    · exact h.storable c hc
    · obtain ⟨-, d, hd, inside⟩ := (h.mem_newFacts clean).mp (List.mem_toFinset.mp hc)
      exact inside.elim (fun e => e ▸ storable d hd) (storable d hd).of_mem_inside
  · rcases Finset.mem_union.mp hc with hc | hc
    · exact Finset.mem_union_left _ (h.closed c hc p hp)
    · obtain ⟨-, d, hd, inside⟩ := (h.mem_newFacts clean).mp (List.mem_toFinset.mp hc)
      by_cases stored : p ∈ facts
      · exact Finset.mem_union_left _ stored
      · refine Finset.mem_union_right _ (List.mem_toFinset.mpr ((h.mem_newFacts clean).mpr ?_))
        exact ⟨stored, d, hd, .inr (Concept.mem_inside_of_mem_parts inside hp)⟩

/-- Adding makes facts of the concepts and of all that stands inside them. -/
theorem indexed_add_all (h : Indexed t facts) {cs : List Concept}
    (storable : ∀ c ∈ cs, Storable c) (base : FactBase) :
    Indexed (base.add cs t).2 (facts ∪ (cs ++ cs.flatMap Concept.inside).toFinset) := by
  refine (congrArg (Indexed _) (Finset.ext fun c => ?_)).mp (h.indexed_add storable base)
  by_cases old : c ∈ facts
  · simp [old]
  · simp only [Finset.mem_union, old, false_or, List.mem_toFinset, List.mem_append,
      List.mem_flatMap, h.mem_newFacts fun c hc => (storable c hc).clean, not_false_eq_true,
      true_and]
    constructor
    · rintro ⟨d, hd, rfl | inside⟩
      · exact .inl hd
      · exact .inr ⟨d, hd, inside⟩
    · rintro (hc | ⟨d, hd, inside⟩)
      · exact ⟨c, hc, .inl rfl⟩
      · exact ⟨d, hd, .inr inside⟩

end Indexed

end ConceptSpace.FactBase
