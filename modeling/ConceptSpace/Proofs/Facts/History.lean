import Mathlib.Algebra.BigOperators.Group.Finset.Piecewise
import ConceptSpace.Proofs.Facts.Removing

/-!
# Histories of a fact base

A table that was reached by adding and removing clean concepts, and by starting over, in any order,
is determined by the facts that it holds (`Reached.describes`): they are closed under parts, each of
them has its key, its edges and one index entry for each of its masks, and the counters are the
numbers of index entries. Nothing else is stored.
-/

namespace ConceptSpace.FactBase

open Storage

/-! ## Starting over -/

theorem deleteBatches_eq (t : Table) (batches : List (List String)) :
    deleteBatches t batches = t.deleteAll batches.flatten := by
  induction batches generalizing t with
  | nil => rfl
  | cons batch batches ih =>
    simp only [deleteBatches, ih, List.flatten_cons, Table.deleteAll_append]

/-- Starting over deletes key by key, whatever the batches. -/
theorem reset_eq (base : FactBase) (s : Store) :
    base.reset s = match page s.table {} with
      | .error e => (.error e, s)
      | .ok facts => (.ok (s.table.deleteAll (s.table.listKeys {})).1,
          { base.detach facts s with table := (s.table.deleteAll (s.table.listKeys {})).2 }) := by
  rw [FactBase.reset]
  cases page s.table {} with
  | error e => rfl
  | ok facts => simp only [deleteBatches_eq, Sequence.flatten_batches, detach]

theorem eraseAll_listKeys (t : Table) : t.eraseAll (t.listKeys {}) = ∅ := by
  ext1 key
  rw [Table.getElem?_eraseAll]
  split
  · simp
  case isFalse absent =>
    have : key ∉ t := fun hk =>
      absent (Table.mem_listKeys_stem.mpr ⟨hk, by simp⟩)
    simp [Std.ExtTreeMap.getElem?_eq_none this]

theorem factOf_fact {c : Concept} (h : Storable c) : factOf (Key.fact c) = .ok c := by
  rw [factOf, Key.readFact_fact h.fits]
  change liftSource (Source.ofKey c.key) = _
  rw [h.clean.ofKey_key]
  rfl

/-- Facts can be listed if their keys read back. -/
theorem exists_page_eq {t : Table} (read : ∀ key : String, key ∈ t →
    Key.factStem.toList <+: key.toList → ∃ c, Storable c ∧ key = Key.fact c) :
    ∃ found, page t {} = .ok found := by
  have all : ∀ key ∈ t.listKeys (Page.listing {}), ∃ c, factOf key = .ok c ∧ Storable c := by
    intro key hk
    have listed : key ∈ t.listKeys { stem := Key.factStem } := hk
    obtain ⟨stored, under⟩ := Table.mem_listKeys_stem.mp listed
    obtain ⟨c, storable, rfl⟩ := read key stored under
    exact ⟨c, factOf_fact storable, storable⟩
  obtain ⟨found, e, -⟩ := Sequence.exists_mapM_eq_ok all
  exact ⟨found, e⟩

theorem Indexed.exists_page_eq {t : Table} {facts : Finset Concept} (h : Indexed t facts) :
    ∃ found, page t {} = .ok found := by
  refine FactBase.exists_page_eq fun key hm under => ?_
  obtain ⟨c, hc, rfl⟩ := exists_of_factStem_prefix (h.mem_table_iff.mp hm) under
  exact ⟨c, h.storable c hc, rfl⟩

theorem detach_texts {s : Store} (texts : s.texts = ∅) (base : FactBase) (cs : List Concept) :
    (base.detach cs s).texts = ∅ := by
  simp only [detach, texts]
  induction cs with
  | nil => rfl
  | cons c cs ih => simpa using ih

/-- Starting over succeeds if the stored facts can be listed, and then it leaves no entry. -/
theorem exists_reset_eq {s : Store} {found : List Concept} (listed : page s.table {} = .ok found)
    (base : FactBase) : ∃ count,
      base.reset s = (.ok count, { base.detach found s with table := ∅ }) := by
  refine ⟨(s.table.deleteAll (s.table.listKeys {})).1, ?_⟩
  rw [reset_eq, listed, Table.deleteAll_snd, eraseAll_listKeys]

/-- Starting over succeeds and leaves no entry. -/
theorem Indexed.reset {s : Store} {facts : Finset Concept} (h : Indexed s.table facts)
    (texts : s.texts = ∅) (base : FactBase) :
    (∃ count, (base.reset s).1 = .ok count) ∧ (base.reset s).2.table = ∅ ∧
      (base.reset s).2.texts = ∅ := by
  obtain ⟨found, listed⟩ := h.exists_page_eq
  obtain ⟨count, e⟩ := exists_reset_eq listed base
  rw [e]
  exact ⟨⟨count, rfl⟩, rfl, detach_texts texts base found⟩

/-! ## Histories -/

/-- A change of a fact base. -/
inductive Change where
  /-- Concepts are added. -/
  | add (cs : List Concept)
  /-- Concepts are removed. -/
  | remove (cs : List Concept)
  /-- Everything is deleted. -/
  | reset

namespace Change

/-- The concepts that a change names. -/
def concepts : Change → List Concept
  | .add cs => cs
  | .remove cs => cs
  | .reset => []

/-- Makes a change. -/
def run (base : FactBase) (s : Store) : Change → Except Error Unit × Store
  | .add cs =>
    (((base.add cs s.table).1).map fun _ => (), { s with table := (base.add cs s.table).2 })
  | .remove cs => (((base.remove cs s).1).map fun _ => (), (base.remove cs s).2)
  | .reset => (((base.reset s).1).map fun _ => (), (base.reset s).2)

theorem table_add (base : FactBase) (s : Store) (cs : List Concept) :
    ((Change.add cs).run base s).2.table = (base.add cs s.table).2 := rfl

theorem table_remove (base : FactBase) (s : Store) (cs : List Concept) :
    ((Change.remove cs).run base s).2.table = (base.remove cs s).2.table := rfl

end Change

/-- The stores that changes with concepts of a kind lead to from a store without data, as far as
there is a number for the entries. -/
inductive Reached (kind : Concept → Prop) : Store → Prop where
  /-- A store without data. -/
  | create (backend : Backend) : Reached kind (Store.create backend)
  /-- A store after a change, whatever comes of it. -/
  | change {s : Store} (base : FactBase) (change : Change) (h : Reached kind s)
    (storable : ∀ c ∈ change.concepts, Storable c) (kinds : ∀ c ∈ change.concepts, kind c)
    (small : (change.run base s).2.table.size < Text.wordCount) :
    Reached kind (change.run base s).2

theorem Reached.mono {kind wider : Concept → Prop} {s : Store} (h : Reached kind s)
    (within : ∀ c, kind c → wider c) : Reached wider s := by
  induction h with
  | create backend => exact .create backend
  | change base change _ storable kinds small ih =>
    exact .change base change ih storable (fun c hc => within c (kinds c hc)) small

/-- A change of a table that holds what its facts are stored as succeeds and leaves such a table,
the new facts of which stand inside the concepts of the change. -/
theorem Indexed.exists_run_eq {s : Store} {facts : Finset Concept} (h : Indexed s.table facts)
    (small : s.table.size < Text.wordCount) (texts : s.texts = ∅) (base : FactBase)
    {change : Change} (storable : ∀ c ∈ change.concepts, Storable c) :
    (change.run base s).1 = .ok () ∧ (change.run base s).2.texts = ∅ ∧
      ∃ left, Indexed (change.run base s).2.table left ∧
        ∀ c ∈ left, c ∈ facts ∨ ∃ d ∈ change.concepts, c = d ∨ c ∈ d.inside := by
  cases change with
  | add cs =>
    have storable : ∀ c ∈ cs, Storable c := storable
    have clean : ∀ c ∈ cs, c.Clean := fun c hc => (storable c hc).clean
    refine ⟨?_, texts, _, h.indexed_add storable base, fun c hc => ?_⟩
    · simp [Change.run, (h.add clean base).1, Except.map]
    · refine (Finset.mem_union.mp hc).imp_right fun hc => ?_
      exact ((h.mem_newFacts clean).mp (List.mem_toFinset.mp hc)).2
  | remove cs =>
    have clean : ∀ c ∈ cs, c.Clean := fun c hc => (storable c hc).clean
    obtain ⟨removed, count, left, e, indexed, -⟩ := h.exists_remove_eq small clean base
    simp only [Change.run, e]
    exact ⟨rfl, detach_texts texts base removed, _, indexed,
      fun c hc => .inl (Finset.mem_sdiff.mp hc).1⟩
  | reset =>
    obtain ⟨⟨count, e⟩, none, noTexts⟩ := h.reset texts base
    refine ⟨by simp [Change.run, e, Except.map], noTexts, ∅, ?_, by simp⟩
    simp only [Change.run, none]
    exact .empty

/-- A store that was reached has no texts, and the table of its facts, which are of the kind of the
concepts that were added if the parts of such concepts are. -/
theorem Reached.exists_indexed {kind : Concept → Prop} {s : Store} (h : Reached kind s) :
    s.table.size < Text.wordCount ∧ s.texts = ∅ ∧ ∃ facts, Indexed s.table facts ∧
      ((∀ c, kind c → ∀ p ∈ c.parts, kind p) → ∀ c ∈ facts, kind c) := by
  induction h with
  | create backend => exact ⟨by simp [Store.create, Text.wordCount], rfl, ∅, .empty, by simp⟩
  | change base change _ storable kinds fits ih =>
    obtain ⟨small, texts, facts, indexed, kind⟩ := ih
    obtain ⟨-, texts, left, indexed, origin⟩ := indexed.exists_run_eq small texts base storable
    refine ⟨fits, texts, left, indexed, fun closed c hc => ?_⟩
    rcases origin c hc with hc | ⟨d, hd, rfl | inside⟩
    · exact kind closed c hc
    · exact kinds c hd
    · exact Concept.mem_of_mem_inside closed (kinds d hd) inside

/-! ## One addition -/

/-- There are no more entries than marks and counters of facts. -/
theorem Indexed.size_le {t : Table} {facts : Finset Concept} (h : Indexed t facts)
    {cs : List Concept} (among : ∀ c ∈ facts, c ∈ cs) :
    t.size ≤ (cs.flatMap fun c => marks c ++ counterKeys c).length := by
  rw [← Std.ExtTreeMap.length_keys]
  refine (List.subperm_of_subset t.nodup_keys fun key hk => ?_).length_le
  have stored := h.mem_table_iff.mp (Std.ExtTreeMap.mem_keys.mp hk)
  rw [List.mem_flatMap]
  rcases exists_of_described_ne_none stored with ⟨c, hc, hk⟩ | ⟨c, hc, hk⟩
  · exact ⟨c, among c hc, List.mem_append_left _ hk⟩
  · exact ⟨c, among c hc, List.mem_append_right _ hk⟩

section Single

variable (backend : Backend) (base : FactBase) {cs : List Concept}
  (storable : ∀ c ∈ cs, Storable c)

include storable in
/-- After one addition, the facts are the concepts added and what stands inside them. -/
theorem indexed_add_create :
    Indexed ((Change.add cs).run base (Store.create backend)).2.table
      (cs ++ cs.flatMap Concept.inside).toFinset := by
  have added := Indexed.empty.indexed_add_all storable base
  rwa [Finset.empty_union] at added

/-- One addition reaches a store without data, if there is a number for the marks and counters of
the facts. -/
theorem Reached.add_create {kind : Concept → Prop} (storable : ∀ c ∈ cs, Storable c)
    (kinds : ∀ c ∈ cs, kind c)
    (few : ((cs ++ cs.flatMap Concept.inside).flatMap fun c => marks c ++ counterKeys c).length <
      Text.wordCount) :
    Reached kind ((Change.add cs).run base (Store.create backend)).2 :=
  .change base (.add cs) (.create backend) storable kinds <|
    Nat.lt_of_le_of_lt ((indexed_add_create backend base storable).size_le fun _ hc =>
      List.mem_toFinset.mp hc) few

end Single

/-! ## What the facts determine -/

/-- The entries that facts call for. -/
inductive Entry (facts : Finset Concept) : String → Value → Prop where
  /-- A fact is stored. -/
  | fact {c : Concept} (h : c ∈ facts) : Entry facts (Key.fact c) Value.marker
  /-- A fact has an index entry for each of its masks. -/
  | index {c m : Concept} {values : List Concept} (h : c ∈ facts) (hm : m ∈ c.masks)
    (hv : c.maskValues? m = some values) : Entry facts (Key.maskMatch m values) Value.marker
  /-- A fact has an edge from the part at each position. -/
  | edge {c p : Concept} {i : Nat} (h : c ∈ facts) (hp : c.parts[i]? = some p) :
    Entry facts (Key.containment p i c) Value.marker
  /-- A mask that fits facts has a counter, which says how many there are. -/
  | counter {m : Concept} {count : Nat} (hm : m.Clean) (pos : 0 < count)
    (h : (facts.filter (m ∈ ·.masks)).card = count) :
    Entry facts (Key.maskCount m) (Value.ofCount (UInt64.ofNat count))

/-- A table is the one that its facts call for. -/
structure Describes (facts : Finset Concept) (t : Table) : Prop where
  /-- The facts are the clean concepts that are stored. -/
  stored : ∀ c, c ∈ facts ↔ c.Clean ∧ contains t c = true
  /-- Each fact has a key of its own. -/
  own : ∀ c ∈ facts, ∀ d ∈ facts, Key.fact c = Key.fact d → c = d
  /-- Parts of facts are facts. -/
  closed : ∀ c ∈ facts, ∀ p ∈ c.parts, p ∈ facts
  /-- The table has the entries that the facts call for, and no others. -/
  entries : ∀ (key : String) (value : Value), t[key]? = some value ↔ Entry facts key value
  /-- Each mask of a fact has values. -/
  values : ∀ c ∈ facts, ∀ m ∈ c.masks, ∃ values, c.maskValues? m = some values
  /-- Each mask of each fact has an index entry of its own. -/
  apart : ∀ c ∈ facts, ∀ d ∈ facts, ∀ m ∈ c.masks, ∀ n ∈ d.masks, ∀ values others,
    c.maskValues? m = some values → d.maskValues? n = some others →
      Key.maskMatch m values = Key.maskMatch n others → c = d ∧ m = n
  /-- Each part at each position of each fact has an edge of its own. -/
  edges : ∀ c ∈ facts, ∀ d ∈ facts, ∀ i j p q, c.parts[i]? = some p → d.parts[j]? = some q →
    Key.containment p i c = Key.containment q j d → c = d ∧ i = j
  /-- Each counter holds the number of entries under its mask; there is none at zero. -/
  counters : ∀ m : Concept, t[Key.maskCount m]? =
    counterValue (t.listKeys { stem := Key.maskMatches m }).length
  /-- The counters do not overflow. -/
  counted : ∀ m : Concept, (t.listKeys { stem := Key.maskMatches m }).length < Text.wordCount

/-! ## Counters and index entries -/

/-- No two index entries of some facts are the same. -/
theorem nodup_flatMap_indexEntries {cs : List Concept} (storable : ∀ c ∈ cs, Storable c)
    (nodup : cs.Nodup) : (cs.flatMap indexEntries).Nodup := by
  refine List.nodup_flatMap.mpr ⟨fun c hc => ?_, nodup.imp_of_mem fun hc hd ne => ?_⟩
  · exact List.Nodup.of_map _ (storable c hc).nodup_counterKeys
  · intro e he he'
    have mark : ∀ c, e ∈ indexEntries c → e.2 ∈ marks c := fun c he => by
      simp only [marks, List.mem_cons, List.mem_append, List.mem_map]
      exact .inr (.inl ⟨e, he, rfl⟩)
    exact ne ((storable _ hc).eq_of_mem_marks (storable _ hd) (mark _ he) (mark _ he'))

namespace Indexed

variable {t : Table} {facts : Finset Concept}

/-- The entries under a mask are those of the facts that are counted under it. -/
theorem listKeys_maskMatches_perm (h : Indexed t facts) (m : Concept) :
    (t.listKeys { stem := Key.maskMatches m }).Perm
      (((facts.toList.flatMap indexEntries).filter (·.1 == Key.maskCount m)).map (·.2)) := by
  have storable : ∀ c ∈ facts.toList, Storable c := fun c hc =>
    h.storable c (Finset.mem_toList.mp hc)
  refine (List.perm_ext_iff_of_nodup (Table.nodup_listKeys_stem t _) ?_).mpr fun key => ?_
  · refine List.Nodup.map_on (fun e he f hf same => ?_)
      ((nodup_flatMap_indexEntries storable facts.nodup_toList).filter _)
    have he := (List.mem_filter.mp he).2
    have hf := (List.mem_filter.mp hf).2
    exact Prod.ext ((beq_iff_eq.mp he).trans (beq_iff_eq.mp hf).symm) same
  · simp only [Table.mem_listKeys_stem, List.mem_map, List.mem_filter, List.mem_flatMap,
      Finset.mem_toList, beq_iff_eq, h.mem_table_iff]
    constructor
    · rintro ⟨stored, under⟩
      obtain ⟨c, hc, n, hn, values, hv, same, rfl⟩ := exists_of_maskMatches_prefix stored under
      have entry := mem_indexEntries_iff.mpr ⟨n, hn, values, hv, rfl⟩
      exact ⟨_, ⟨⟨c, hc, entry⟩, by rw [Key.maskCount, same, Key.maskCount]⟩, rfl⟩
    · rintro ⟨e, ⟨⟨c, hc, he⟩, same⟩, rfl⟩
      obtain ⟨n, hn, values, hv, rfl⟩ := mem_indexEntries_iff.mp he
      have mark := mem_marks_iff.mpr (.inr (.inl ⟨n, hn, values, hv, rfl⟩))
      exact ⟨by simp [described_of_mem_marks hc mark],
        Key.maskMatches_prefix_iff.mpr (Key.maskCount_inj same).symm⟩

/-- As many entries stand under a mask as are counted. -/
theorem length_listKeys_maskMatches (h : Indexed t facts) (m : Concept) :
    (t.listKeys { stem := Key.maskMatches m }).length = total facts (Key.maskCount m) := by
  rw [(h.listKeys_maskMatches_perm m).length_eq, List.length_map, ← List.countP_eq_length_filter]
  have counted := count_flatMap_counterKeys facts.nodup_toList (Key.maskCount m)
  rw [Finset.toList_toFinset, ← map_fst_flatMap_indexEntries, List.count,
    List.countP_map] at counted
  exact counted

/-- As many facts are counted under a mask as it fits. -/
theorem total_maskCount (h : Indexed t facts) {m : Concept} (hm : m.Clean) :
    total facts (Key.maskCount m) = (facts.filter (m ∈ ·.masks)).card := by
  rw [Finset.card_filter, total]
  refine Finset.sum_congr rfl fun c hc => ?_
  have storable := h.storable c hc
  have mem : Key.maskCount m ∈ counterKeys c ↔ m ∈ c.masks := by
    rw [storable.counterKeys_eq, List.mem_map]
    constructor
    · rintro ⟨n, hn, e⟩
      rwa [← ((storable.clean.clean_of_mem_masks hn).key_inj hm).mp (Key.maskCount_inj e)]
    · exact fun hm => ⟨m, hm, rfl⟩
  split
  case isTrue masked => exact List.count_eq_one_of_mem storable.nodup_counterKeys (mem.mpr masked)
  case isFalse other => exact List.count_eq_zero.mpr fun hk => other (mem.mp hk)

/-- What is stored is what the facts call for. -/
theorem getElem?_eq_some_iff (h : Indexed t facts) (key : String) (value : Value) :
    t[key]? = some value ↔ Entry facts key value := by
  rw [h.lookup]
  constructor
  · intro stored
    rcases exists_of_described_ne_none (by rw [stored]; simp) with ⟨c, hc, hk⟩ | ⟨c, hc, hk⟩
    · rw [described_of_mem_marks hc hk] at stored
      obtain rfl := Option.some.inj stored
      rcases mem_marks_iff.mp hk with rfl | ⟨m, hm, values, hv, rfl⟩ | ⟨i, p, hp, rfl⟩
      · exact .fact hc
      · exact .index hc hm hv
      · exact .edge hc hp
    · obtain ⟨m, hm, rfl⟩ := exists_of_mem_counterKeys hk
      have clean := (h.storable c hc).clean.clean_of_mem_masks hm
      have pos : 0 < (facts.filter (m ∈ ·.masks)).card :=
        Finset.card_pos.mpr ⟨c, Finset.mem_filter.mpr ⟨hc, hm⟩⟩
      rw [described_maskCount, h.total_maskCount clean, counterValue_of_pos pos] at stored
      obtain rfl := Option.some.inj stored
      exact .counter clean pos rfl
  · intro entry
    cases entry with
    | fact hc => exact described_of_mem_marks hc (fact_mem_marks _)
    | index hc hm hv =>
      exact described_of_mem_marks hc (mem_marks_iff.mpr (.inr (.inl ⟨_, hm, _, hv, rfl⟩)))
    | edge hc hp =>
      exact described_of_mem_marks hc (mem_marks_iff.mpr (.inr (.inr ⟨_, _, hp, rfl⟩)))
    | counter hm pos count =>
      rw [described_maskCount, h.total_maskCount hm, count, counterValue_of_pos pos]

/-- A table that holds what its facts are stored as is the one that they call for. -/
theorem describes_of_size_lt (h : Indexed t facts) (small : t.size < Text.wordCount) :
    Describes facts t where
  stored _ := h.mem_iff
  own _ hc _ hd e := h.injOn_fact hc hd e
  closed := h.closed
  entries := h.getElem?_eq_some_iff
  values c hc m hm := by
    obtain ⟨values, entry⟩ := (h.storable c hc).exists_isEntry hm
    exact ⟨values, entry.read⟩
  apart c hc d hd m hm n hn values others hv ho e := by
    have entry := (h.storable c hc).isEntry_of_maskValues? hm hv
    have other := (h.storable d hd).isEntry_of_maskValues? hn ho
    obtain ⟨mask, same⟩ := Key.maskMatch_inj e
    exact ⟨entry.eq other mask same, (entry.clean.key_inj other.clean).mp mask⟩
  edges c hc d hd i j p q _ _ e := by
    obtain ⟨-, position, same⟩ := Key.containment_inj e
    exact ⟨((h.storable c hc).clean.key_inj (h.storable d hd).clean).mp same, position⟩
  counters m := by rw [h.length_listKeys_maskMatches, h.lookup, described_maskCount]
  counted m := Nat.lt_of_le_of_lt (Table.length_listKeys_stem_le t _) small

end Indexed

/-! ## Main statement -/

/-- Whatever was added and removed, the table is the one that the stored facts call for, and any
further change of clean concepts succeeds. So two histories that end with the same facts end with
the same data. -/
theorem Reached.describes {kind : Concept → Prop} {s : Store} (h : Reached kind s) :
    (∃ facts, Describes facts s.table) ∧
      (∀ (base : FactBase) (change : Change), (∀ c ∈ change.concepts, Storable c) →
        (change.run base s).1 = .ok ()) ∧
      ∀ (kind' : Concept → Prop) (s' : Store), Reached kind' s' →
        (∀ c : Concept, c.Clean → contains s'.table c = contains s.table c) →
          s'.table = s.table ∧ s'.texts = s.texts := by
  obtain ⟨small, texts, facts, indexed, -⟩ := h.exists_indexed
  refine ⟨⟨facts, indexed.describes_of_size_lt small⟩, fun base change storable => ?_,
    fun _ s' h' same => ?_⟩
  · exact (indexed.exists_run_eq small texts base storable).1
  · obtain ⟨small', texts', facts', indexed', -⟩ := h'.exists_indexed
    have : facts' = facts := by
      ext c
      rw [(indexed'.describes_of_size_lt small').stored,
        (indexed.describes_of_size_lt small).stored]
      exact and_congr_right fun clean => by rw [same c clean]
    subst this
    exact ⟨indexed'.table_eq indexed, texts'.trans texts.symm⟩

/-- A pair, and a fact that holds a pair. -/
private def pairs : List Concept :=
  [.compound [.atom "a", .atom "b"], .compound [.atom "c", .compound [.atom "d", .atom "a"]]]

/-- A store to which the facts have been added, two keys at a time. -/
private def pairStore : Store :=
  ((Change.add pairs).run ⟨"home", 2⟩ (Store.create .memory)).2

/-- The facts that are left when `d` is removed: one of the facts with its words, and a word of the
other one. -/
private def keptPairs : Finset Concept :=
  {.compound [.atom "a", .atom "b"], .atom "a", .atom "b", .atom "c"}

theorem pairStore_describes :
    Reached (fun _ => True) ((Change.remove [.atom "d"]).run ⟨"home", 2⟩ pairStore).2 ∧
      Describes keptPairs ((Change.remove [.atom "d"]).run ⟨"home", 2⟩ pairStore).2.table := by
  have fine : ∀ c ∈ pairs, c.Clean ∧ Key.FitsMemory c.key := by decide +kernel
  have storable : ∀ c ∈ pairs, Storable c := fun c hc => ⟨(fine c hc).1, (fine c hc).2⟩
  have given : ∀ c ∈ [Concept.atom "d"], Storable c := by
    simpa using ⟨by decide +kernel, by decide +kernel⟩
  have added : Reached (fun _ => True) pairStore :=
    .add_create .memory ⟨"home", 2⟩ storable (fun _ _ => trivial) (by decide +kernel)
  have indexed : Indexed pairStore.table _ := indexed_add_create .memory ⟨"home", 2⟩ storable
  obtain ⟨removed, count, left, e, remaining, -, mem⟩ := indexed.exists_remove_eq
    added.exists_indexed.1 (fun c hc => (given c hc).clean) ⟨"home", 2⟩
  have table : ((Change.remove [.atom "d"]).run ⟨"home", 2⟩ pairStore).2.table = left := by
    rw [Change.table_remove, e, detach]
  have few : ((pairs ++ pairs.flatMap Concept.inside).flatMap
      fun c => marks c ++ counterKeys c).length < Text.wordCount := by decide +kernel
  have small : left.size < Text.wordCount :=
    Nat.lt_of_le_of_lt (remaining.size_le fun c hc =>
      List.mem_toFinset.mp (Finset.mem_sdiff.mp hc).1) few
  have reached : Reached (fun _ => True)
      ((Change.remove [.atom "d"]).run ⟨"home", 2⟩ pairStore).2 :=
    .change ⟨"home", 2⟩ (.remove [.atom "d"]) added (by simpa [Change.concepts] using given)
      (fun _ _ => trivial) (table ▸ small)
  obtain ⟨facts, describes⟩ := reached.describes.1
  have kept_iff : ∀ c ∈ pairs ++ pairs.flatMap Concept.inside, c ∈ keptPairs ↔
      ¬ (c = .atom "d" ∨ .atom "d" ∈ c.inside) := by decide +kernel
  have among : ∀ c ∈ keptPairs, c ∈ pairs ++ pairs.flatMap Concept.inside := by decide +kernel
  have named : facts = keptPairs := by
    ext c
    rw [describes.stored, table, ← remaining.mem_iff, Finset.mem_sdiff, List.mem_toFinset,
      List.mem_toFinset, mem, List.mem_toFinset]
    constructor
    · rintro ⟨hc, kept⟩
      refine (kept_iff c hc).mpr fun holds => kept ⟨hc, _, List.mem_singleton_self _, ?_, holds⟩
      decide +kernel
    · intro hc
      refine ⟨among c hc, ?_⟩
      rintro ⟨-, d, hd, -, holds⟩
      obtain rfl := List.mem_singleton.mp hd
      exact (kept_iff c (among c hc)).mp hc holds
  exact ⟨reached, named ▸ describes⟩

end ConceptSpace.FactBase
