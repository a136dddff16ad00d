import ConceptSpace.Proofs.Facts.Counting
import ConceptSpace.Proofs.Facts.Pivot
import ConceptSpace.Proofs.Facts.Search
import ConceptSpace.Proofs.Source.Interpolation

/-!
# Tables of clean facts

What a table stores under a key is of clean concepts if only such were added to it (`IsClean.add`,
`IsClean.mono`), whatever became of the calls: an addition that fails has lost no key and written
none but those of new facts, and a removal deletes keys only, among them no keys of facts but of
those that it removes (`remove_spec`). From such a table nothing but clean concepts is read, whether
memory could hold their keys or not, so that a page lists the stored facts themselves
(`IsClean.exists_mem_of_page`) and answers bind clean concepts (`IsClean.clean_of_answers`). Queries
of clean rules end (`IsClean.isRead_of_answers`): each pivot uses up a rule, and what its entries
make of the others are not more rules.
-/

namespace ConceptSpace

namespace Storage.Key

/-- The concepts that are read back from a storage key of a space are clean. The counters are not
read back, and the texts have keys of their own. -/
def Name.IsClean : Name → Prop
  | .fact c => c.Clean
  | .edge _ _ _ => True
  | .entry _ values => ∀ value ∈ values, value.Clean
  | .counter _ => True
  | .text _ _ => False

end Storage.Key

open Sequence (Fails Gives)

/-- Whether a fault is of a text that is read or of the storage. -/
def Error.IsRead : Error → Prop
  | .source _ => True
  | .storage _ => True
  | _ => False

theorem Sequence.Fails.liftSource {α : Type} (x : Except Source.Error α) :
    Fails (liftSource x) Error.IsRead := by
  cases x with
  | error fault => exact .error trivial
  | ok a => exact .ok a

theorem Sequence.Fails.liftStorage {α : Type} (x : Except Storage.Error α) :
    Fails (liftStorage x) Error.IsRead := by
  cases x with
  | error fault => exact .error trivial
  | ok a => exact .ok a

theorem Sequence.Gives.liftSource {α : Type} {x : Except Source.Error α} {P : α → Prop}
    (h : Gives x P) : Gives (liftSource x) P := by
  cases x with
  | error e => rintro _ ⟨⟩
  | ok a => exact .ok (h a rfl)

theorem Sequence.Gives.liftStorage {α : Type} {x : Except Storage.Error α} {P : α → Prop}
    (h : Gives x P) : Gives (liftStorage x) P := by
  cases x with
  | error e => rintro _ ⟨⟩
  | ok a => exact .ok (h a rfl)

namespace FactBase

open Storage

variable {base : FactBase} {t t' : Table} {cs facts : List Concept} {c : Concept} {key : String}

/-! ## Keys that are kept -/

/-- No key is lost from a table. -/
def KeepsKeys (t t' : Table) : Prop :=
  ∀ key : String, t.contains key = true → t'.contains key = true

theorem KeepsKeys.refl (t : Table) : KeepsKeys t t :=
  fun _ h => h

theorem contains_mark_iff {keys : List String} :
    (base.mark t keys).contains key = true ↔ key ∈ keys ∨ t.contains key = true := by
  rw [Table.contains_eq_isSome, getElem?_mark, Table.contains_eq_isSome]
  split
  case isTrue marked => exact iff_of_true rfl (.inl marked)
  case isFalse unmarked => exact (or_iff_right unmarked).symm

theorem keepsKeys_putAll (t : Table) (entries : List (String × Value)) :
    KeepsKeys t (t.putAll entries) := by
  induction entries generalizing t with
  | nil => exact .refl t
  | cons entry entries ih =>
    intro key h
    refine ih _ key ?_
    rw [Table.contains_eq_isSome] at h ⊢
    rw [Table.getElem?_insert]
    split
    · rfl
    · exact h

theorem keepsKeys_mark (base : FactBase) (t : Table) (keys : List String) :
    KeepsKeys t (base.mark t keys) :=
  fun _ h => contains_mark_iff.mpr (.inr h)

theorem contains_putAll {entries : List (String × Value)}
    (h : (t.putAll entries).contains key = true) :
    key ∈ entries.map (·.1) ∨ t.contains key = true := by
  by_cases written : key ∈ entries.map (·.1)
  · exact .inl written
  · rw [Table.contains_eq_isSome, Table.getElem?_putAll_of_not_mem written,
      ← Table.contains_eq_isSome] at h
    exact .inr h

/-! ## Adding -/

/-- Adding facts loses no key, even if it fails, and marks the new facts. -/
theorem add_spec (base : FactBase) (cs : List Concept) (t : Table) :
    KeepsKeys t (base.add cs t).2 ∧ ((base.add cs t).2 = t ∨
      ∃ c, contains (base.add cs t).2 c = true ∧ contains t c = false) := by
  cases new : base.newFacts t cs with
  | nil =>
    have same : (base.add cs t).2 = t := by simp [add, new]
    rw [same]
    exact ⟨fun _ h => h, .inl rfl⟩
  | cons c more =>
    let facts := base.mark t ((c :: more).map Key.fact)
    let indexed := base.mark facts (((c :: more).flatMap indexEntries).map (·.2))
    have kept : KeepsKeys facts (base.add cs t).2 := by
      intro key h
      have h : indexed.contains key = true := keepsKeys_mark base facts _ key h
      unfold add
      simp only [new, List.isEmpty_cons, Bool.false_eq_true, if_false]
      split
      · exact h
      · rw [Table.foldl_putAll_batches]
        exact keepsKeys_mark base _ _ key (keepsKeys_putAll _ _ key h)
    have fresh : contains t c = false :=
      contains_eq_false_of_mem_newFacts (by rw [new]; simp)
    have marked : facts.contains (Key.fact c) = true := by
      rw [Table.contains_eq_isSome, getElem?_mark, if_pos (by simp)]
      rfl
    exact ⟨fun key h => kept key (keepsKeys_mark base t _ key h), .inr ⟨c, kept _ marked, fresh⟩⟩

/-- What the new facts are stored as is all that an addition writes, even if it fails. -/
theorem exists_of_contains_add (h : (base.add cs t).2.contains key = true) :
    t.contains key = true ∨
      ∃ c ∈ base.newFacts t cs, key ∈ marks c ∨ key ∈ counterKeys c := by
  unfold add at h
  simp only at h
  generalize base.newFacts t cs = added at h
  split at h
  case isTrue => exact .inl h
  case isFalse =>
    have marked : key ∈ added.flatMap marks → t.contains key = true ∨
        ∃ c ∈ added, key ∈ marks c ∨ key ∈ counterKeys c := fun hk => by
      obtain ⟨c, hc, hk⟩ := List.mem_flatMap.mp hk
      exact .inr ⟨c, hc, .inl hk⟩
    have before : (base.mark (base.mark t (added.map Key.fact))
        ((added.flatMap indexEntries).map (·.2))).contains key = true → t.contains key = true ∨
          ∃ c ∈ added, key ∈ marks c ∨ key ∈ counterKeys c := by
      rw [contains_mark_iff, contains_mark_iff]
      rintro (entry | fact | old)
      · exact marked (mem_flatMap_marks_iff.mpr (.inr (.inl entry)))
      · exact marked (mem_flatMap_marks_iff.mpr (.inl fact))
      · exact .inl old
    split at h
    case h_1 => exact before h
    case h_2 counts raised =>
      rw [contains_mark_iff, Table.foldl_putAll_batches] at h
      rcases h with edge | h
      · exact marked (mem_flatMap_marks_iff.mpr (.inr (.inr edge)))
      · rcases contains_putAll h with counted | h
        · obtain ⟨e, he, rfl⟩ := List.mem_map.mp counted
          obtain ⟨⟨counter, amount⟩, ha, same⟩ :=
            List.mem_map.mp (mem_amounts_of_raised raised he)
          rw [map_fst_flatMap_indexEntries] at ha
          obtain ⟨c, hc, hk⟩ := List.mem_flatMap.mp (mem_tally_iff.mp ha).1
          exact .inr ⟨c, hc, .inr (same ▸ hk)⟩
        · exact before h

theorem clean_of_mem_newFacts (clean : ∀ c ∈ cs, c.Clean) : ∀ c ∈ base.newFacts t cs, c.Clean := by
  have roots : ∀ c ∈ base.missing t (Concept.distinct cs), c.Clean := fun c hc =>
    Concept.clean_of_mem_distinct clean c (mem_missing.mp hc).1
  intro c hc
  unfold newFacts at hc
  simp only at hc
  split at hc
  · simp at hc
  · rcases List.mem_append.mp ((Concept.distinct_sublist _).subset hc) with hc | hc
    · exact roots c hc
    · exact Concept.clean_of_mem_deepParts roots c (mem_missing.mp hc).1

/-- The facts that are new among clean concepts are clean. -/
theorem clean_of_add (clean : ∀ c ∈ cs, c.Clean) (t : Table) :
    Gives (base.add cs t).1 fun new => ∀ c ∈ new, c.Clean := by
  have new : ∀ c ∈ base.newFacts t cs, c.Clean := clean_of_mem_newFacts clean
  unfold add
  simp only
  split
  · exact .ok (by simp)
  · split
    · rintro _ ⟨⟩
    · exact .ok new

/-! ## Removing -/

/-- A table that has lost keys, and of the keys of facts only those of some concepts. -/
structure Loses (facts : List Concept) (t t' : Table) : Prop where
  /-- No key is new. -/
  old : KeepsKeys t' t
  /-- The keys of other facts are kept. -/
  kept : ∀ c, contains t c = true → contains t' c = true ∨ ∃ d ∈ facts, d.key = c.key

theorem keepsKeys_eraseAll (t : Table) (keys : List String) : KeepsKeys (t.eraseAll keys) t := by
  intro key h
  rw [Table.contains_eq_isSome, Table.getElem?_eraseAll] at h
  split at h
  · cases h
  · rwa [Table.contains_eq_isSome]

/-- Lowering counters makes none that was not there. -/
theorem keepsKeys_of_lowerCounts {amounts : List (String × UInt64)}
    (ok : (lowerCounts amounts).runDirect t = (.ok (), t')) : KeepsKeys t' t := by
  induction amounts generalizing t with
  | nil =>
    obtain ⟨-, rfl⟩ := Prod.mk.inj ok
    exact .refl t
  | cons e amounts ih =>
    obtain ⟨current, read⟩ := exists_storedCount_of_lowerCounts ok
    obtain ⟨next, step, here, others⟩ := exists_runDirect_lowerCounts_cons read e.2 amounts
    intro key h
    have h := ih (step ▸ ok) key h
    rw [Table.contains_eq_isSome] at h ⊢
    by_cases own : key = e.1
    · subst own
      -- A counter that is not there counts as zero, which is not above any amount.
      cases stored : t[e.1]? with
      | some => rfl
      | none =>
        rw [stored] at read
        obtain rfl := Except.ok.inj read
        rw [here, if_pos UInt64.zero_le] at h
        exact h
    · rwa [others key own] at h

theorem loses_of_removal {n : Nat} (ok : (removal facts).runDirect t = (.ok n, t')) :
    Loses facts t t' := by
  obtain ⟨lowered, lower, deleted⟩ := exists_of_removal ok
  rw [runDirect_deleteKeys] at deleted
  obtain ⟨-, rfl⟩ := Prod.mk.inj deleted
  refine ⟨fun key h => keepsKeys_eraseAll t _ key (keepsKeys_of_lowerCounts lower key
    (keepsKeys_eraseAll lowered _ key h)), fun c hc => ?_⟩
  by_cases own : Key.fact c ∈ facts.map Key.fact
  · obtain ⟨d, hd, same⟩ := List.mem_map.mp own
    exact .inr ⟨d, hd, Key.fact_inj same⟩
  · left
    rwa [contains, Table.contains_eq_isSome, Table.getElem?_eraseAll, if_neg own,
      getElem?_lowered_of_isFactKey lower (isFactKey_fact c), ← Table.contains_eq_isSome]

/-- Removing changes nothing, or it takes keys away and drops the texts of the facts whose keys it
takes away. -/
theorem remove_spec (base : FactBase) (cs : List Concept) (s : Store) :
    (base.remove cs s).2 = s ∨ ∃ facts left, Loses facts s.table left ∧
      (base.remove cs s).2 = base.detach facts { s with table := left } := by
  rcases remove_cases base cs s with ⟨e, -, failed⟩ | ⟨facts, -, ⟨fault, -, failed⟩ |
    ⟨n, left, run, done⟩⟩
  · exact .inl (congrArg Prod.snd failed)
  · exact .inl (congrArg Prod.snd failed)
  · exact .inr ⟨facts, left, loses_of_removal run, congrArg Prod.snd done⟩

/-! ## Clean tables -/

/-- What a table stores is of clean concepts. -/
def IsClean (t : Table) : Prop :=
  ∀ key : String, t.contains key = true → ∃ n : Key.Name, n.IsClean ∧ n.key = key

/-- What a clean concept is stored as is of clean concepts. -/
theorem exists_isClean_of_mem_marks (hc : c.Clean) (h : key ∈ marks c ∨ key ∈ counterKeys c) :
    ∃ n : Key.Name, n.IsClean ∧ n.key = key := by
  rcases h with mark | counter
  · rcases mem_marks_iff.mp mark with rfl | ⟨m, hm, values, read, rfl⟩ | ⟨i, p, -, rfl⟩
    · exact ⟨.fact c, hc, rfl⟩
    · exact ⟨.entry m values, hc.clean_of_maskValues? (hc.clean_of_mem_masks hm) read, rfl⟩
    · exact ⟨.edge p i c, trivial, rfl⟩
  · obtain ⟨m, -, rfl⟩ := exists_of_mem_counterKeys counter
    exact ⟨.counter m, trivial, rfl⟩

/-- What the facts of a table are stored as is of clean concepts. -/
theorem Indexed.isClean {facts : Finset Concept} (h : Indexed t facts) : IsClean t := by
  intro key hk
  rcases exists_of_described_ne_none (h.mem_table_iff.mp hk) with ⟨c, hc, mark⟩ | ⟨c, hc, counter⟩
  · exact exists_isClean_of_mem_marks (h.storable c hc).clean (.inl mark)
  · exact exists_isClean_of_mem_marks (h.storable c hc).clean (.inr counter)

namespace IsClean

theorem empty : IsClean ∅ :=
  fun _ h => by simp at h

theorem mono (h : IsClean t) (fewer : KeepsKeys t' t) : IsClean t' :=
  fun key hk => h key (fewer key hk)

/-- Adding clean concepts stores clean concepts, even if it fails. -/
theorem add (h : IsClean t) (clean : ∀ c ∈ cs, c.Clean) : IsClean (base.add cs t).2 := by
  intro key hk
  rcases exists_of_contains_add hk with old | ⟨c, hc, hk⟩
  · exact h key old
  · exact exists_isClean_of_mem_marks (clean_of_mem_newFacts clean c hc) hk

/-! ## Reading from clean tables -/

/-- The key of a fact is that of a clean fact. -/
theorem exists_fact (h : IsClean t) (hk : t.contains key = true) (isFact : IsFactKey key) :
    ∃ c : Concept, c.Clean ∧ key = Key.fact c := by
  obtain ⟨n, clean, rfl⟩ := h key hk
  have family := (Key.Name.stem_isPrefix_iff (f := .fact)).mp isFact
  cases n <;> try contradiction
  case fact c => exact ⟨c, clean, rfl⟩

/-- An index entry under a mask has clean values. -/
theorem exists_values (h : IsClean t) {mask : Concept} (hk : t.contains key = true)
    (under : (Key.maskMatches mask).toList <+: key.toList) :
    ∃ m values, (∀ value ∈ values, Concept.Clean value) ∧ key = Key.maskMatch m values := by
  obtain ⟨n, clean, rfl⟩ := h key hk
  obtain ⟨m, values, rfl, -⟩ := Key.Name.maskMatches_isPrefix_iff.mp under
  exact ⟨m, values, clean, rfl⟩

end IsClean

/-- What is read of the key of a clean fact is the fact. -/
theorem eq_of_factOf (hc : c.Clean) : Gives (factOf (Key.fact c)) (· = c) := by
  rw [factOf]
  refine .bind (.liftStorage fun key => Key.eq_of_readFact) ?_
  rintro _ rfl
  rw [hc.ofKey_key]
  exact .ok rfl

/-- What is read of an index entry are its values, if they are clean. -/
theorem eq_of_valuesOf {m : Concept} {values : List Concept}
    (clean : ∀ value ∈ values, value.Clean) :
    Gives (valuesOf (Key.maskMatch m values)) (· = values) := by
  rw [valuesOf]
  refine .bind (.liftStorage fun keys => Key.eq_of_readMaskMatch) ?_
  rintro _ rfl
  rw [mapM_ofKey_eq clean]
  exact .ok rfl

namespace IsClean

/-- A page without bounds lists the stored facts. -/
theorem exists_mem_of_page (h : IsClean t) {found : List Concept} (ok : page t {} = .ok found)
    (stored : contains t c = true) : ∃ d ∈ found, d.key = c.key := by
  have listed : Key.fact c ∈ t.listKeys (Page.listing {}) :=
    Table.mem_listKeys_stem.mpr ⟨stored, isFactKey_fact c⟩
  obtain ⟨d, hd, read⟩ :=
    Sequence.exists_of_mem_left (Sequence.forall₂_of_mapM_eq_ok ok) listed
  obtain ⟨e, clean, same⟩ := h.exists_fact stored (isFactKey_fact c)
  rw [same] at read
  obtain rfl := eq_of_factOf clean d read
  exact ⟨d, hd, (Key.fact_inj same).symm⟩

/-- Stored facts can be listed, if memory holds their keys. -/
theorem exists_page_eq (h : IsClean t)
    (fits : ∀ c, contains t c = true → Key.FitsMemory c.key) :
    ∃ found, page t {} = .ok found := by
  refine FactBase.exists_page_eq fun key stored isFact => ?_
  obtain ⟨c, clean, rfl⟩ := h.exists_fact stored isFact
  exact ⟨c, ⟨clean, fits c stored⟩, rfl⟩

/-- The index entries of clean facts have clean values. -/
theorem clean_of_maskEntries (h : IsClean t) (mask : Concept) : Gives (maskEntries t mask)
    fun entries => ∀ values ∈ entries, ∀ value ∈ values, Concept.Clean value := by
  refine .mapM fun key hk => ?_
  obtain ⟨stored, under⟩ := Table.mem_listKeys_stem.mp hk
  obtain ⟨m, values, clean, rfl⟩ := h.exists_values stored under
  exact (eq_of_valuesOf clean).mono fun found e => e ▸ clean

/-- Searches for clean rules find clean concepts. -/
theorem clean_of_answersWithin (h : IsClean t) {partials : Bool} {depth : Nat}
    {rules : List Concept} (clean : ∀ r ∈ rules, r.Clean) :
    Gives (base.answersWithin t partials depth rules)
      fun found => ∀ b ∈ found, b.AllValues Concept.Clean := by
  induction depth generalizing rules with
  | zero => rintro _ ⟨⟩
  | succ depth ih =>
    rw [answersWithin, List.partition_eq_filter_filter]
    simp only
    have patterns : ∀ r ∈ (Concept.distinct rules).filter (·.isPattern), r.Clean := fun r hr =>
      Concept.clean_of_mem_distinct clean r (List.mem_filter.mp hr).1
    split
    · exact .ok (by simp)
    refine .bind (P := fun chosen => ∀ mask rule rest, chosen = some (mask, rule, rest) →
      ∀ r ∈ rule :: rest, r.Clean) ?_ fun chosen among => ?_
    · rintro _ found mask rule rest rfl r hr
      exact patterns r ((perm_of_pivot found).2.subset hr)
    split
    · exact .ok (by simpa using Bindings.allValues_empty _)
    case h_2 mask rule rest =>
      split
      · exact .ok (by simp)
      refine .bind (h.clean_of_maskEntries mask) fun entries cleanEntries => ?_
      refine .bind (P := fun answers => ∀ found ∈ answers, ∀ b ∈ found, b.AllValues Concept.Clean)
        (.mapM fun values hv => ?_) fun answers cleanAnswers => .ok fun b hb => ?_
      · split
        · exact .ok (by simp)
        case h_2 cand bound =>
          have cleanCand : cand.AllValues Concept.Clean :=
            allValues_of_bindEntry (cleanEntries values hv) bound
          split
          · exact .ok (by simp)
          split
          · exact .ok (by simpa using cleanCand)
          refine .bind (.liftSource fun remaining => ?_) fun remaining cleanRemaining =>
            .bind (ih cleanRemaining) fun completions cleanExtra => .ok fun b hb => ?_
          · exact Source.clean_of_substitute
              (fun r hr => among mask rule rest rfl r (List.mem_cons_of_mem _ hr))
              fun name value hm => cleanCand (Bindings.mem_values_iff.mp hm)
          · obtain ⟨extra, he, merged⟩ := List.mem_filterMap.mp hb
            exact cleanCand.merge? (cleanExtra extra he) merged
      · obtain ⟨found, hf, hb⟩ := List.mem_flatten.mp (List.mem_filter.mp hb).1
        exact cleanAnswers found hf b hb

/-- Clean rules are answered with clean concepts. -/
theorem clean_of_answers (h : IsClean t) {partials : Bool} {rules : List Concept}
    (clean : ∀ r ∈ rules, r.Clean) : Gives (base.answers t rules partials)
      fun found => ∀ b ∈ found, b.AllValues Concept.Clean := by
  intro found e
  obtain ⟨depth, same⟩ := exists_answersWithin_eq e nofun
  exact h.clean_of_answersWithin clean found (same depth (Nat.le_refl _))

end IsClean

/-! ## Queries that end -/

theorem fails_pivot (t : Table) (patterns : List Concept) :
    Fails (pivot t patterns) Error.IsRead := by
  refine .bind (.mapM fun group _ => .bind (.liftStorage _) fun count _ => .ok _) fun counted _ => ?_
  split
  · exact .ok _
  · exact .ok _

theorem fails_maskEntries (t : Table) (mask : Concept) :
    Fails (maskEntries t mask) Error.IsRead :=
  .mapM fun _ _ => .bind (.liftStorage _) fun _ _ => .mapM fun _ _ => .liftSource _

/-- A search for clean rules is not cut off at a depth above their number. -/
theorem IsClean.isRead_of_answersWithin (h : IsClean t) {partials : Bool} {depth : Nat}
    {rules : List Concept} (clean : ∀ r ∈ rules, r.Clean) (enough : rules.length < depth) :
    Fails (base.answersWithin t partials depth rules) Error.IsRead := by
  induction depth generalizing rules with
  | zero => omega
  | succ depth ih =>
    rw [answersWithin, List.partition_eq_filter_filter]
    simp only
    split
    · exact .ok _
    refine .bind (fails_pivot t _) fun chosen found => ?_
    split
    · exact .ok _
    case h_2 mask rule rest =>
      -- The pivot is used up, and the other rules are among the given ones.
      obtain ⟨-, perm⟩ := perm_of_pivot found
      have asked : ((Concept.distinct rules).filter (·.isPattern)).Sublist rules :=
        List.filter_sublist.trans (Concept.distinct_sublist rules)
      have fewer : rest.length < rules.length := perm.length_eq.trans_le asked.length_le
      have cleanRest : ∀ r ∈ rest, r.Clean := fun r hr =>
        clean r (asked.subset (perm.subset (List.mem_cons_of_mem _ hr)))
      split
      · exact .ok _
      refine .bind (fails_maskEntries t mask) fun entries listed =>
        .bind (.mapM fun values hv => ?_) fun _ _ => .ok _
      split
      · exact .ok _
      case h_2 cand bound =>
        split
        · exact .ok _
        split
        · exact .ok _
        refine .bind (.liftSource _) fun remaining read => ?_
        have cleanCand : cand.AllValues Concept.Clean :=
          allValues_of_bindEntry (h.clean_of_maskEntries mask entries listed values hv) bound
        obtain ⟨made, e, notMore⟩ := Source.exists_substitute_eq cleanRest cleanCand
        rw [e] at read
        obtain rfl : made = remaining := Except.ok.inj read
        refine .bind (ih (Source.clean_of_substitute cleanRest (fun name value hm =>
          cleanCand (Bindings.mem_values_iff.mp hm)) e) (by omega)) fun _ _ => .ok _

/-- Queries of clean rules end, so that they fail by a fault of what is read, if they fail. -/
theorem IsClean.isRead_of_answers (h : IsClean t) {partials : Bool} {rules : List Concept}
    (clean : ∀ r ∈ rules, r.Clean) : Fails (base.answers t rules partials) Error.IsRead := by
  have ends : Fails (base.answersWithin t partials _ rules) Error.IsRead :=
    h.isRead_of_answersWithin clean (Nat.lt_succ_self _)
  have same := answers_eq_of_answersWithin rfl fun cut => ends _ cut
  exact same ▸ ends

end FactBase

end ConceptSpace
