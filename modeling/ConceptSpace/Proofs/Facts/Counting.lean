import ConceptSpace.Proofs.Facts.Removing

/-!
# The number of stored facts

Whatever a table holds, adding facts raises the number of stored facts by the number of facts that
it reports (`count_add`), and removing facts lowers it by the number of deleted ones that it reports
(`count_remove`). Only the keys of facts count; the index entries, the edges and the counters that
are written beside them do not start like these.
-/

namespace ConceptSpace.FactBase

open Storage

/-! ## Keys of facts -/

/-- Whether a key starts like those of facts. -/
def IsFactKey (key : String) : Prop :=
  Key.factStem.toList <+: key.toList

theorem isFactKey_fact (c : Concept) : IsFactKey (Key.fact c) :=
  (Key.Name.stem_isPrefix_iff (f := .fact) (n := .fact c)).mpr rfl

theorem not_isFactKey_of_mem_entries {facts : List Concept} {key : String}
    (h : key ∈ (facts.flatMap indexEntries).map (·.2)) : ¬ IsFactKey key := by
  obtain ⟨e, he, rfl⟩ := List.mem_map.mp h
  obtain ⟨c, -, he⟩ := List.mem_flatMap.mp he
  obtain ⟨m, -, values, -, rfl⟩ := mem_indexEntries_iff.mp he
  intro start
  cases (Key.Name.stem_isPrefix_iff (f := .fact) (n := .entry m values)).mp start

theorem not_isFactKey_of_mem_edges {facts : List Concept} {key : String}
    (h : key ∈ facts.flatMap Key.containments) : ¬ IsFactKey key := by
  obtain ⟨c, -, hk⟩ := List.mem_flatMap.mp h
  obtain ⟨i, p, -, rfl⟩ := mem_containments_iff.mp hk
  intro start
  cases (Key.Name.stem_isPrefix_iff (f := .fact) (n := .edge p i c)).mp start

theorem not_isFactKey_of_mem_tally {facts : List Concept} {key : String}
    (h : key ∈ (tally (facts.flatMap counterKeys)).map (·.1)) : ¬ IsFactKey key := by
  obtain ⟨⟨counter, amount⟩, he, rfl⟩ := List.mem_map.mp h
  obtain ⟨c, -, hk⟩ := List.mem_flatMap.mp (mem_tally_iff.mp he).1
  obtain ⟨m, -, rfl⟩ := exists_of_mem_counterKeys hk
  intro start
  cases (Key.Name.stem_isPrefix_iff (f := .fact) (n := .counter m)).mp start

/-- The keys of the stored facts. -/
def factKeys (t : Table) : Finset String :=
  (t.listKeys { stem := Key.factStem }).toFinset

theorem mem_factKeys {t : Table} {key : String} :
    key ∈ factKeys t ↔ t[key]?.isSome = true ∧ IsFactKey key := by
  rw [factKeys, List.mem_toFinset, Table.mem_listKeys_stem,
    Std.ExtTreeMap.mem_iff_isSome_getElem?, IsFactKey]

theorem card_factKeys (t : Table) : (factKeys t).card = count t := by
  rw [factKeys, List.toFinset_card_of_nodup (Table.nodup_listKeys_stem t _), Table.listKeys,
    List.length_map, count]

/-- What a table holds under other keys does not count. -/
theorem factKeys_congr {t t' : Table} (h : ∀ key : String, IsFactKey key → t'[key]? = t[key]?) :
    factKeys t' = factKeys t := by
  ext key
  rw [mem_factKeys, mem_factKeys]
  exact and_congr_left fun isFact => by rw [h key isFact]

theorem count_congr {t t' : Table} (h : ∀ key : String, IsFactKey key → t'[key]? = t[key]?) :
    count t' = count t := by
  rw [← card_factKeys, ← card_factKeys, factKeys_congr h]

/-! ## Adding -/

/-- The keys of facts are counted when they are marked. -/
theorem factKeys_mark_facts (base : FactBase) (t : Table) (cs : List Concept) :
    factKeys (base.mark t (cs.map Key.fact)) = factKeys t ∪ (cs.map Key.fact).toFinset := by
  ext key
  rw [Finset.mem_union, List.mem_toFinset, mem_factKeys, mem_factKeys, getElem?_mark]
  split
  case isTrue marked =>
    obtain ⟨c, -, rfl⟩ := List.mem_map.mp marked
    exact iff_of_true ⟨rfl, isFactKey_fact c⟩ (.inr marked)
  case isFalse unmarked => exact (or_iff_left unmarked).symm

theorem getElem?_mark_of_isFactKey {base : FactBase} {t : Table} {keys : List String}
    (others : ∀ key ∈ keys, ¬ IsFactKey key) {key : String} (h : IsFactKey key) :
    (base.mark t keys)[key]? = t[key]? := by
  rw [getElem?_mark, if_neg fun hk => others key hk h]

/-- The counters that are raised are those that amounts are given for. -/
theorem mem_amounts_of_raised {base : FactBase} {t : Table} {amounts : List (String × UInt64)}
    {entries : List (String × Value)} (ok : base.raised t amounts = .ok entries)
    {e : String × Value} (he : e ∈ entries) : e.1 ∈ amounts.map (·.1) := by
  rw [raised_eq_mapM] at ok
  obtain ⟨amount, among, step⟩ :=
    Sequence.exists_of_mem_right (Sequence.forall₂_of_mapM_eq_ok ok) he
  obtain ⟨current, -, same⟩ := Sequence.exists_of_bind_eq_ok step
  obtain rfl := Except.ok.inj same
  exact List.mem_map.mpr ⟨amount, among, rfl⟩

/-- Adding facts stores the keys of the new ones beside those that are there. -/
theorem factKeys_add {base : FactBase} {cs new : List Concept} {t : Table}
    (ok : (base.add cs t).1 = .ok new) : new = base.newFacts t cs ∧
      factKeys (base.add cs t).2 = factKeys t ∪ (new.map Key.fact).toFinset := by
  cases some : base.newFacts t cs with
  | nil =>
    have same : base.add cs t = (.ok [], t) := by simp [add, some]
    rw [same] at ok ⊢
    obtain rfl := Except.ok.inj ok
    simp
  | cons c more =>
    unfold add at ok ⊢
    simp only [some, List.isEmpty_cons, Bool.false_eq_true, if_false] at ok ⊢
    split at ok
    · cases ok
    case h_2 counts raised =>
      obtain rfl := Except.ok.inj ok
      refine ⟨rfl, (factKeys_congr fun key h => ?_).trans (factKeys_mark_facts base t _)⟩
      have uncounted : key ∉ counts.map (·.1) := by
        intro hk
        obtain ⟨e, he, rfl⟩ := List.mem_map.mp hk
        have given := mem_amounts_of_raised raised he
        rw [map_fst_flatMap_indexEntries] at given
        exact not_isFactKey_of_mem_tally given h
      simp only
      rw [getElem?_mark_of_isFactKey (fun _ => not_isFactKey_of_mem_edges) h,
        Table.foldl_putAll_batches, Table.getElem?_putAll_of_not_mem uncounted,
        getElem?_mark_of_isFactKey (fun _ => not_isFactKey_of_mem_entries) h]

theorem nodup_map_fact {cs : List Concept} (h : (cs.map Concept.key).Nodup) :
    (cs.map Key.fact).Nodup := by
  refine List.pairwise_map.mpr ((List.pairwise_map.mp h).imp fun ne same => ne ?_)
  exact Key.fact_inj same

theorem nodup_keys_newFacts (base : FactBase) (t : Table) (cs : List Concept) :
    ((base.newFacts t cs).map Concept.key).Nodup := by
  unfold newFacts
  simp only
  split
  · exact List.nodup_nil
  · exact Sequence.nodup_keys_distinctBy _ _

/-- Adding raises the number of stored facts by the number of facts that it reports. -/
theorem count_add {base : FactBase} {cs new : List Concept} {t : Table}
    (ok : (base.add cs t).1 = .ok new) : count (base.add cs t).2 = count t + new.length := by
  obtain ⟨rfl, keys⟩ := factKeys_add ok
  have disjoint : Disjoint (factKeys t) ((base.newFacts t cs).map Key.fact).toFinset := by
    rw [Finset.disjoint_right]
    intro key hk old
    obtain ⟨c, hc, rfl⟩ := List.mem_map.mp (List.mem_toFinset.mp hk)
    have absent : contains t c = false := contains_eq_false_of_mem_newFacts hc
    rw [contains, Table.contains_eq_isSome, (mem_factKeys.mp old).1] at absent
    cases absent
  rw [← card_factKeys, keys, Finset.card_union_of_disjoint disjoint, card_factKeys,
    List.toFinset_card_of_nodup (nodup_map_fact (nodup_keys_newFacts base t cs)), List.length_map]

/-! ## Removing -/

/-- Deleting the key of a fact takes it away, if it is there. -/
theorem count_erase {t : Table} {key : String} (h : IsFactKey key) :
    count (t.erase key) + (if t.contains key then 1 else 0) = count t := by
  have keys : factKeys (t.erase key) = (factKeys t).erase key := by
    ext other
    rw [Finset.mem_erase, mem_factKeys, mem_factKeys, Table.getElem?_erase]
    by_cases same : key = other
    · simp [same]
    · simp [same, Ne.symm same]
  rw [← card_factKeys, ← card_factKeys, keys, Table.contains_eq_isSome]
  by_cases stored : key ∈ factKeys t
  · rw [if_pos (mem_factKeys.mp stored).1, Finset.card_erase_add_one stored]
  · rw [Finset.erase_eq_of_notMem stored, if_neg fun some => stored (mem_factKeys.mpr ⟨some, h⟩),
      Nat.add_zero]

/-- Deleting keys of facts counts those that are taken away. -/
theorem count_eraseAll {keys : List String} (h : ∀ key ∈ keys, IsFactKey key) (t : Table) :
    count (t.eraseAll keys) + (t.deleteAll keys).1 = count t := by
  induction keys generalizing t with
  | nil => rfl
  | cons key keys ih =>
    have first := count_erase (t := t) (h key (by simp))
    have rest := ih (fun k hk => h k (by simp [hk])) (t.erase key)
    simp only [Table.eraseAll_cons, Table.deleteAll]
    by_cases stored : t.contains key = true
    · rw [if_pos stored] at first ⊢
      omega
    · rw [if_neg stored] at first ⊢
      omega

/-- Lowering counters that succeeds has read the first of them. -/
theorem exists_storedCount_of_lowerCounts {amounts : List (String × UInt64)} {t t' : Table}
    {counter : String} {amount : UInt64}
    (ok : (lowerCounts ((counter, amount) :: amounts)).runDirect t = (.ok (), t')) :
    ∃ current, storedCount t[counter]? = .ok current := by
  cases read : storedCount t[counter]? with
  | ok current => exact ⟨current, rfl⟩
  | error fault =>
    have failed : ((lowerCounts ((counter, amount) :: amounts)).runDirect t).1 = .error fault := by
      rw [lowerCounts, Transaction.runDirect_bind]
      change ((Transaction.ofExcept (storedCount t[counter]?) >>= _).runDirect t).1 = _
      rw [Transaction.runDirect_bind, read]
      rfl
    rw [ok] at failed
    cases failed

/-- Lowering counters leaves other keys alone. -/
theorem getElem?_lowerCounts {amounts : List (String × UInt64)} {t t' : Table}
    (ok : (lowerCounts amounts).runDirect t = (.ok (), t')) {key : String}
    (h : key ∉ amounts.map (·.1)) : t'[key]? = t[key]? := by
  induction amounts generalizing t with
  | nil =>
    obtain ⟨-, rfl⟩ := Prod.mk.inj ok
    rfl
  | cons e amounts ih =>
    simp only [List.map_cons, List.mem_cons, not_or] at h
    obtain ⟨current, read⟩ := exists_storedCount_of_lowerCounts ok
    obtain ⟨next, step, -, kept⟩ := exists_runDirect_lowerCounts_cons read e.2 amounts
    rw [ih (step ▸ ok) h.2, kept key h.1]

/-- The parts of a removal that succeeds. -/
theorem exists_of_removal {facts : List Concept} {t t' : Table} {n : Nat}
    (ok : (removal facts).runDirect t = (.ok n, t')) : ∃ lowered,
      (lowerCounts (tally (facts.flatMap counterKeys))).runDirect
        (t.eraseAll (Indexed.firstDeleted facts)) = (.ok (), lowered) ∧
      (deleteKeys (facts.map Key.fact)).runDirect lowered = (.ok n, t') := by
  rw [Indexed.removal_eq, Transaction.runDirect_bind, runDirect_deleteKeys] at ok
  simp only at ok
  rw [Transaction.runDirect_bind] at ok
  rcases lower : (lowerCounts (tally (facts.flatMap counterKeys))).runDirect
    (t.eraseAll (Indexed.firstDeleted facts)) with ⟨fault | ⟨⟨⟩⟩, lowered⟩
  · rw [lower] at ok
    cases ok
  · rw [lower] at ok
    exact ⟨lowered, rfl, ok⟩

/-- What is deleted and lowered before the keys of the facts leaves the keys of facts alone. -/
theorem getElem?_lowered_of_isFactKey {facts : List Concept} {t lowered : Table}
    (ok : (lowerCounts (tally (facts.flatMap counterKeys))).runDirect
      (t.eraseAll (Indexed.firstDeleted facts)) = (.ok (), lowered)) {key : String}
    (h : IsFactKey key) : lowered[key]? = t[key]? := by
  have kept : key ∉ Indexed.firstDeleted facts := by
    rw [Indexed.firstDeleted, List.mem_append, not_or]
    exact ⟨fun hk => not_isFactKey_of_mem_entries hk h, fun hk => not_isFactKey_of_mem_edges hk h⟩
  rw [getElem?_lowerCounts ok fun hk => not_isFactKey_of_mem_tally hk h,
    Table.getElem?_eraseAll, if_neg kept]

/-- The transaction that removes facts lowers their number by the number of deleted ones. -/
theorem count_removal {facts : List Concept} {t t' : Table} {n : Nat}
    (ok : (removal facts).runDirect t = (.ok n, t')) : count t' + n = count t := by
  obtain ⟨lowered, lower, deleted⟩ := exists_of_removal ok
  have own : ∀ key ∈ facts.map Key.fact, IsFactKey key := by
    intro key hk
    obtain ⟨c, -, rfl⟩ := List.mem_map.mp hk
    exact isFactKey_fact c
  rw [runDirect_deleteKeys] at deleted
  obtain ⟨same, rfl⟩ := Prod.mk.inj deleted
  obtain rfl := Except.ok.inj same
  rw [count_eraseAll own, count_congr fun key => getElem?_lowered_of_isFactKey lower]

/-- Removing lowers the number of stored facts by the number of deleted ones that it reports. -/
theorem count_remove {base : FactBase} {cs : List Concept} {s s' : Store} {r : Removal}
    (ok : base.remove cs s = (.ok r, s')) : count s'.table + r.count = count s.table := by
  rcases remove_cases base cs s with ⟨e, -, failed⟩ | ⟨facts, -, ⟨fault, -, failed⟩ |
    ⟨n, left, run, done⟩⟩
  · cases failed.symm.trans ok
  · cases failed.symm.trans ok
  · obtain ⟨same, rfl⟩ := Prod.mk.inj (done.symm.trans ok)
    obtain rfl := Except.ok.inj same
    exact count_removal run

end ConceptSpace.FactBase
