import Mathlib.Algebra.Order.BigOperators.Group.Finset
import Mathlib.Data.List.TakeWhile
import ConceptSpace.Proofs.Facts.Adding
import ConceptSpace.Proofs.Storage.Backends
import ConceptSpace.Proofs.Storage.Listing

/-!
# Removing facts

Removing clean concepts from a table that holds what its facts are stored as removes the stored ones
among them with every fact around them, and gives the table of the remaining facts
(`Indexed.exists_remove_eq`). The search for the facts around follows the edges upward and ends, since
each fact is found once. What it finds is on the stack or holds something on it
(`Indexed.exists_of_mem_upward`); conversely it reaches every fact around, since the parts in
between are facts, too (`IsUpward.mem_of_mem_inside`). Lowering the counters undoes what the removed
facts had counted.
-/

namespace ConceptSpace.FactBase

open Storage

/-! ## The facts around a concept -/

theorem length_parts_le {c : Concept} (h : c.Clean) : c.parts.length ≤ c.words.length := by
  cases c with
  | atom => simp
  | compound ps =>
    rw [Concept.words_compound]
    exact Concept.length_le_length_flatMap fun p hp => (h.of_mem hp).words_ne_nil

namespace Indexed

variable {t : Table} {facts : Finset Concept}

/-- The facts around a concept are found by its edges. -/
theorem exists_contexts_eq (h : Indexed t facts) {c : Concept} (hc : c.Clean) :
    ∃ around, contexts t c = .ok around ∧ ∀ d, d ∈ around ↔ d ∈ facts ∧ c ∈ d.parts := by
  have read : ∀ key ∈ t.listKeys { stem := Key.containmentsOf c },
      ∃ d, containerOf key = .ok d ∧ d ∈ facts ∧ ∃ i : Nat, d.parts[i]? = some c ∧
        key = Key.containment c i d := by
    intro key hk
    obtain ⟨hm, under⟩ := Table.mem_listKeys_stem.mp hk
    have stored := h.mem_table_iff.mp hm
    obtain ⟨d, hd, i, p, hp, same, rfl⟩ := exists_of_containmentsOf_prefix stored under
    have part : p ∈ facts := h.closed d hd p (List.mem_of_getElem? hp)
    obtain rfl : p = c := ((h.storable p part).clean.key_inj hc).mp same
    have storable := h.storable d hd
    have position : i < Text.wordCount := by
      have low := (List.getElem?_eq_some_iff.mp hp).1
      have := length_parts_le storable.clean
      have := storable.length_words_le
      omega
    refine ⟨d, ?_, hd, i, hp, rfl⟩
    rw [containerOf,
      Key.readContainment_containment (h.storable p part).fits position storable.fits]
    change liftSource (Source.ofKey d.key) = _
    rw [storable.clean.ofKey_key]
    rfl
  obtain ⟨found, e, related⟩ := Sequence.exists_mapM_eq_ok read
  have clean : ∀ d ∈ found, d.Clean := by
    intro d hd
    obtain ⟨key, -, stored, -⟩ := Sequence.exists_of_mem_right related hd
    exact (h.storable d stored).clean
  refine ⟨Concept.distinct found, ?_, fun d => ?_⟩
  · rw [contexts]
    rw [e]
    rfl
  · rw [Concept.mem_distinct clean]
    constructor
    · intro hd
      obtain ⟨key, -, stored, i, hp, -⟩ := Sequence.exists_of_mem_right related hd
      exact ⟨stored, List.mem_of_getElem? hp⟩
    · rintro ⟨stored, hp⟩
      obtain ⟨i, hp⟩ := List.mem_iff_getElem?.mp hp
      have mark : Key.containment c i d ∈ marks d :=
        mem_marks_iff.mpr (.inr (.inr ⟨i, c, hp, rfl⟩))
      have listed : Key.containment c i d ∈ t.listKeys { stem := Key.containmentsOf c } := by
        refine Table.mem_listKeys_stem.mpr ⟨?_, Key.containmentsOf_prefix_iff.mpr rfl⟩
        rw [Std.ExtTreeMap.mem_iff_isSome_getElem?, h.lookup, described_of_mem_marks stored mark]
        rfl
      obtain ⟨d', hd', stored', j, hp', e⟩ := Sequence.exists_of_mem_left related listed
      have same := (Key.containment_inj e).2.2
      rwa [((h.storable d stored).clean.key_inj (h.storable d' stored').clean).mp same]

end Indexed

/-! ## The search upward -/

/-- What a search upward finds, of the facts that have not been found before. -/
structure IsUpward (facts : Finset Concept) (pending : Table) (stack found : List Concept) :
    Prop where
  /-- Each fact is found once. -/
  nodup : found.Nodup
  /-- Only pending facts are found. -/
  known : ∀ c ∈ found, c ∈ facts ∧ contains pending c = true
  /-- The pending facts of the stack are found. -/
  stack : ∀ c ∈ stack, contains pending c = true → c ∈ found
  /-- The pending facts around a fact that is found are found. -/
  around : ∀ c ∈ found, ∀ d ∈ facts, c ∈ d.parts → contains pending d = true → d ∈ found

theorem contains_erase_iff {pending : Table} {c d : Concept} (hc : c.Clean) (hd : d.Clean) :
    contains (pending.erase (Key.fact c)) d = true ↔ contains pending d = true ∧ d ≠ c := by
  rw [contains, contains, Table.contains_eq_isSome, Table.contains_eq_isSome, Table.getElem?_erase]
  by_cases e : Key.fact c = Key.fact d
  · obtain rfl := (hc.key_inj hd).mp (Key.fact_inj e)
    simp
  · have : d ≠ c := by
      rintro rfl
      exact e rfl
    simp [e, this]

/-- The concepts that are skipped before the first pending one are not pending. -/
theorem mem_dropWhile_of_contains {pending : Table} {stack : List Concept} {c : Concept}
    (hc : c ∈ stack) (pend : contains pending c = true) :
    c ∈ stack.dropWhile fun c => !contains pending c := by
  rw [← List.takeWhile_append_dropWhile (p := fun c => !contains pending c) (l := stack)] at hc
  rcases List.mem_append.mp hc with hc | hc
  · exact absurd (List.mem_takeWhile_imp hc) (by simp [pend])
  · exact hc

/-- What is left of a stack starts with a pending concept, and stands on the stack. -/
theorem pending_of_dropWhile_eq_cons {pending : Table} {stack rest : List Concept} {c : Concept}
    (first : stack.dropWhile (fun d => !contains pending d) = c :: rest) :
    contains pending c = true ∧ ∀ d ∈ c :: rest, d ∈ stack := by
  refine ⟨?_, fun d hd => (List.dropWhile_sublist _).subset (first ▸ hd)⟩
  have := List.head?_dropWhile_not (fun c => !contains pending c) stack
  simpa [first] using this

theorem size_erase_lt_of_contains {pending : Table} {c : Concept}
    (pend : contains pending c = true) : (pending.erase (Key.fact c)).size < pending.size := by
  have present : pending.contains (Key.fact c) = true := pend
  have nonempty : pending.size ≠ 0 := by
    intro empty
    rw [Std.ExtTreeMap.eq_empty_iff_size_eq_zero.mpr empty] at present
    simp at present
  rw [Std.ExtTreeMap.size_erase, if_pos present]
  omega

/-- The first pending concept of a stack is found before what is found from the facts around it. -/
theorem IsUpward.cons {facts : Finset Concept} {pending : Table}
    {stack rest around found : List Concept} {c : Concept}
    (cleanFacts : ∀ c ∈ facts, c.Clean) (cleanStack : ∀ d ∈ stack, d.Clean) (hc : c ∈ facts)
    (pend : contains pending c = true)
    (first : stack.dropWhile (fun d => !contains pending d) = c :: rest)
    (mem : ∀ d, d ∈ around ↔ d ∈ facts ∧ c ∈ d.parts)
    (up : IsUpward facts (pending.erase (Key.fact c)) (around.reverse ++ rest) found) :
    IsUpward facts pending stack (c :: found) := by
  have cc := cleanFacts c hc
  -- Whatever is pending is found now, or is still pending afterwards.
  have still : ∀ d, d.Clean → contains pending d = true → d = c ∨
      contains (pending.erase (Key.fact c)) d = true := by
    intro d hd pd
    by_cases same : d = c
    · exact .inl same
    · exact .inr ((contains_erase_iff cc hd).mpr ⟨pd, same⟩)
  refine ⟨?_, ?_, ?_, ?_⟩
  · refine List.nodup_cons.mpr ⟨fun hc => ?_, up.nodup⟩
    exact ((contains_erase_iff cc cc).mp (up.known c hc).2).2 rfl
  · intro d hd
    rcases List.mem_cons.mp hd with rfl | hd
    · exact ⟨hc, pend⟩
    · obtain ⟨stored, pd⟩ := up.known d hd
      exact ⟨stored, ((contains_erase_iff cc (cleanFacts d stored)).mp pd).1⟩
  · intro d hd pd
    have hd' := first ▸ mem_dropWhile_of_contains hd pd
    rcases still d (cleanStack d hd) pd with rfl | pd'
    · simp
    · rcases List.mem_cons.mp hd' with rfl | hr
      · simp
      · exact List.mem_cons_of_mem _ (up.stack d (by simp [hr]) pd')
  · intro a ha d hd part pd
    rcases still d (cleanFacts d hd) pd with rfl | pd'
    · simp
    · rcases List.mem_cons.mp ha with rfl | ha
      · refine List.mem_cons_of_mem _ (up.stack d ?_ pd')
        exact List.mem_append_left _ (List.mem_reverse.mpr ((mem d).mpr ⟨hd, part⟩))
      · exact List.mem_cons_of_mem _ (up.around a ha d hd part pd')

/-- The search upward ends with the pending facts of the stack and around them. -/
theorem Indexed.exists_upward_eq {t : Table} {facts : Finset Concept} (h : Indexed t facts)
    {pending : Table} {stack : List Concept} (clean : ∀ c ∈ stack, c.Clean)
    (known : ∀ c, c.Clean → contains pending c = true → c ∈ facts) :
    ∃ found, upward t pending stack = .ok found ∧ IsUpward facts pending stack found := by
  induction hn : pending.size using Nat.strongRecOn generalizing pending stack with
  | _ n ih =>
  subst hn
  have cleanFacts : ∀ c ∈ facts, c.Clean := fun c hc => (h.storable c hc).clean
  rw [upward]
  split
  case h_1 none =>
    refine ⟨[], rfl, List.nodup_nil, by simp, fun c hc pend => ?_, by simp⟩
    simpa [none] using mem_dropWhile_of_contains hc pend
  case h_2 c rest first =>
    obtain ⟨pend, member⟩ := pending_of_dropWhile_eq_cons first
    have hc : c ∈ facts := known c (clean c (member c (by simp))) pend
    obtain ⟨around, e, mem⟩ := h.exists_contexts_eq (cleanFacts c hc)
    have cleanStack : ∀ d ∈ around.reverse ++ rest, d.Clean := by
      intro d hd
      rcases List.mem_append.mp hd with hd | hd
      · exact cleanFacts d ((mem d).mp (List.mem_reverse.mp hd)).1
      · exact clean d (member d (by simp [hd]))
    have knownLeft : ∀ d, d.Clean → contains (pending.erase (Key.fact c)) d = true → d ∈ facts :=
      fun d hd pd => known d hd ((contains_erase_iff (cleanFacts c hc) hd).mp pd).1
    obtain ⟨found, ef, up⟩ := ih _ (size_erase_lt_of_contains pend) cleanStack knownLeft rfl
    refine ⟨c :: found, ?_, up.cons cleanFacts clean hc pend first mem⟩
    rw [e]
    change (upward t _ _ >>= _) = _
    rw [ef]
    rfl

/-! ## What the search finds -/

section Found

variable {t pending : Table} {facts : Finset Concept} {cs stack found : List Concept}
  {c d : Concept}

theorem contains_of_contains_erase {key : String}
    (h : contains (pending.erase key) d = true) : contains pending d = true := by
  rw [contains, Table.contains_eq_isSome, Table.getElem?_erase] at h
  split at h
  · simp at h
  · rwa [contains, Table.contains_eq_isSome]

/-- What is found is a pending concept of the stack, or holds one. -/
theorem Indexed.exists_of_mem_upward (h : Indexed t facts) (clean : ∀ c ∈ stack, c.Clean)
    (ok : upward t pending stack = .ok found) (hd : d ∈ found) :
    ∃ c ∈ stack, contains pending c = true ∧ (d = c ∨ c ∈ d.inside) := by
  fun_induction upward t pending stack generalizing found with
  | case1 =>
    obtain rfl := Except.ok.inj ok
    simp at hd
  | case2 pending stack c rest first ih =>
    obtain ⟨pend, member⟩ := pending_of_dropWhile_eq_cons first
    obtain ⟨around, e, mem⟩ := h.exists_contexts_eq (clean c (member c (by simp)))
    obtain ⟨_, e', ok⟩ := Sequence.exists_of_bind_eq_ok ok
    obtain rfl := Except.ok.inj (e.symm.trans e')
    obtain ⟨more, further, ok⟩ := Sequence.exists_of_bind_eq_ok ok
    obtain rfl : c :: more = found := Except.ok.inj ok
    rcases List.mem_cons.mp hd with rfl | hd
    · exact ⟨d, member d (by simp), pend, .inl rfl⟩
    · have cleanStack : ∀ a ∈ around.reverse ++ rest, a.Clean := by
        intro a ha
        rcases List.mem_append.mp ha with ha | ha
        · exact (h.storable a ((mem a).mp (List.mem_reverse.mp ha)).1).clean
        · exact clean a (member a (by simp [ha]))
      obtain ⟨a, ha, pend', holds⟩ := ih around cleanStack further hd
      rcases List.mem_append.mp ha with ha | ha
      · -- The fact around has the concept as a part, and so has what holds the fact.
        have part : c ∈ a.parts := ((mem a).mp (List.mem_reverse.mp ha)).2
        exact ⟨c, member c (by simp), pend, .inr <|
          Concept.mem_inside_of_mem_parts (holds.imp_left Eq.symm) part⟩
      · exact ⟨a, member a (by simp [ha]), contains_of_contains_erase pend', holds⟩

/-- As long as nothing has been found before, every fact that holds something found is found. -/
theorem IsUpward.mem_of_mem_inside (up : IsUpward facts t stack found) (h : Indexed t facts)
    (hc : c ∈ found) (hd : d ∈ facts) (inside : c ∈ d.inside) : d ∈ found := by
  induction d with
  | atom => simp [Concept.inside] at inside
  | compound ps ih =>
    have pend := (h.contains_iff (h.storable _ hd).clean).mpr hd
    obtain ⟨p, hp, holds⟩ := Concept.mem_inside_iff.mp inside
    have stored : p ∈ facts := h.closed _ hd p hp
    have reached : p ∈ found := by
      rcases holds with rfl | holds
      · exact hc
      · exact ih p hp stored holds
    exact up.around p reached _ hd hp pend

/-- A removal finds the facts that are one of the stored concepts or hold one, each of them once. -/
theorem Indexed.exists_doomed_eq (h : Indexed t facts) (clean : ∀ c ∈ cs, c.Clean) :
    ∃ removed, doomed t cs = .ok removed ∧ removed.Nodup ∧
      ∀ d, d ∈ removed ↔ d ∈ facts ∧ ∃ c ∈ cs, c ∈ facts ∧ (d = c ∨ c ∈ d.inside) := by
  have cleanStack := Concept.clean_of_mem_distinct clean
  obtain ⟨removed, e, up⟩ := h.exists_upward_eq cleanStack fun c hc => (h.contains_iff hc).mp
  refine ⟨removed, e, up.nodup, fun d => ⟨fun hd => ⟨(up.known d hd).1, ?_⟩, ?_⟩⟩
  · obtain ⟨c, hc, stored, holds⟩ := h.exists_of_mem_upward cleanStack e hd
    exact ⟨c, (Concept.mem_distinct clean).mp hc,
      (h.contains_iff (cleanStack c hc)).mp stored, holds⟩
  · rintro ⟨hd, c, hc, stored, holds⟩
    have reached : c ∈ removed := up.stack c ((Concept.mem_distinct clean).mpr hc)
      ((h.contains_iff (clean c hc)).mpr stored)
    rcases holds with rfl | inside
    · exact reached
    · exact up.mem_of_mem_inside h reached hd inside

end Found

/-! ## The transaction -/

theorem runDirect_deleteKeys (keys : List String) (t : Table) :
    (deleteKeys keys).runDirect t = (.ok (t.deleteAll keys).1, t.eraseAll keys) := by
  rw [Transaction.runDirect_deleteKeys_eq, Table.deleteAll_snd]

/-- Lowering the first of some counters deletes it or gives it what is left, and leaves the other
keys alone. -/
theorem exists_runDirect_lowerCounts_cons {t : Table} {key : String} {current : UInt64}
    (read : storedCount t[key]? = .ok current) (amount : UInt64)
    (amounts : List (String × UInt64)) :
    ∃ next : Table, (lowerCounts ((key, amount) :: amounts)).runDirect t =
        (lowerCounts amounts).runDirect next ∧
      (next[key]? = if current ≤ amount then none else some (Value.ofCount (current - amount))) ∧
      ∀ other : String, other ≠ key → next[other]? = t[other]? := by
  by_cases low : current ≤ amount
  · refine ⟨t.erase key, ?_, by simp [low], fun other ho => ?_⟩
    · rw [lowerCounts, Transaction.runDirect_bind]
      change (Transaction.ofExcept (storedCount t[key]?) >>= _).runDirect t = _
      rw [Transaction.runDirect_bind, read]
      simp only [Transaction.ofExcept, Transaction.runDirect, low, if_true]
      rw [Transaction.runDirect_bind]
      rfl
    · rw [Table.getElem?_erase, if_neg (Ne.symm ho)]
  · refine ⟨t.insert key (Value.ofCount (current - amount)), ?_, by simp [low],
      fun other ho => ?_⟩
    · rw [lowerCounts, Transaction.runDirect_bind]
      change (Transaction.ofExcept (storedCount t[key]?) >>= _).runDirect t = _
      rw [Transaction.runDirect_bind, read]
      simp only [Transaction.ofExcept, Transaction.runDirect, low, if_false]
      rw [Transaction.runDirect_bind]
      rfl
    · rw [Table.getElem?_insert, if_neg (Ne.symm ho)]

/-- If the counters can be read, each is lowered by its amount, and deleted where nothing is
left. -/
theorem runDirect_lowerCounts {amounts : List (String × UInt64)} {t : Table}
    (current : String → UInt64) (nodup : (amounts.map (·.1)).Nodup)
    (h : ∀ e ∈ amounts, storedCount t[e.1]? = .ok (current e.1)) :
    ∃ lowered, (lowerCounts amounts).runDirect t = (.ok (), lowered) ∧
      (∀ e ∈ amounts, lowered[e.1]? = if current e.1 ≤ e.2 then none
        else some (Value.ofCount (current e.1 - e.2))) ∧
      ∀ key : String, key ∉ amounts.map (·.1) → lowered[key]? = t[key]? := by
  induction amounts generalizing t with
  | nil => exact ⟨t, rfl, by simp, fun _ _ => rfl⟩
  | cons e amounts ih =>
    obtain ⟨key, amount⟩ := e
    obtain ⟨fresh, nodup⟩ := List.nodup_cons.mp nodup
    have read : storedCount t[key]? = .ok (current key) := h (key, amount) (by simp)
    obtain ⟨next, step, here, others⟩ := exists_runDirect_lowerCounts_cons read amount amounts
    have apart : ∀ e ∈ amounts, e.1 ≠ key := by
      rintro e he rfl
      exact fresh (List.mem_map.mpr ⟨e, he, rfl⟩)
    obtain ⟨lowered, run, changed, kept⟩ := ih nodup fun e he => by
      rw [others e.1 (apart e he)]
      exact h e (by simp [he])
    refine ⟨lowered, step.trans run, ?_, ?_⟩
    · intro e he
      rcases List.mem_cons.mp he with rfl | he
      · rw [kept key fresh, here]
      · exact changed e he
    · intro other ho
      simp only [List.map_cons, List.mem_cons, not_or] at ho
      rw [kept other ho.2, others other ho.1]

/-- The ways in which a removal goes: the search fails, or the transaction does, or it is done. -/
theorem remove_cases (base : FactBase) (cs : List Concept) (s : Store) :
    (∃ e, doomed s.table cs = .error e ∧ base.remove cs s = (.error e, s)) ∨
      ∃ facts, doomed s.table cs = .ok facts ∧
        ((∃ fault, ((removal facts).runDirect s.table).1 = .error fault ∧
            base.remove cs s = (.error (.storage fault), s)) ∨
          ∃ n left, (removal facts).runDirect s.table = (.ok n, left) ∧
            base.remove cs s = (.ok ⟨facts, n⟩, base.detach facts { s with table := left })) := by
  rw [remove]
  cases doomed s.table cs with
  | error e => exact .inl ⟨e, rfl, rfl⟩
  | ok facts =>
    refine .inr ⟨facts, rfl, ?_⟩
    simp only [Store.transact_eq]
    rcases run : (removal facts).runDirect s.table with ⟨fault | n, left⟩
    · exact .inl ⟨fault, rfl, by simp only [Transaction.runInPlace, run]⟩
    · exact .inr ⟨n, left, rfl, by simp only [Transaction.runInPlace, run]⟩

/-! ## The table after removing -/

/-- The counts of some facts are those of the ones removed and of the others. -/
theorem total_sdiff {facts removed : Finset Concept} (h : removed ⊆ facts) (key : String) :
    total (facts \ removed) key = total facts key - total removed key := by
  have := Finset.sum_sdiff (f := fun c => (counterKeys c).count key) h
  simp only [total]
  omega

theorem total_mono {facts removed : Finset Concept} (h : removed ⊆ facts) (key : String) :
    total removed key ≤ total facts key :=
  Finset.sum_le_sum_of_subset h

/-- What facts are stored as without some of them, read off what they are stored as. -/
theorem described_sdiff {facts : Finset Concept} {removed : List Concept}
    (storable : ∀ c ∈ facts, Storable c) (nodup : removed.Nodup) (among : ∀ c ∈ removed, c ∈ facts)
    (key : String) :
    described (facts \ removed.toFinset) key =
      if key ∈ removed.flatMap marks then none
      else if key ∈ removed.flatMap counterKeys then
        counterValue (total facts key - (removed.flatMap counterKeys).count key)
      else described facts key := by
  have subset : removed.toFinset ⊆ facts := fun c hc => among c (List.mem_toFinset.mp hc)
  split
  case isTrue h =>
    obtain ⟨c, hc, hk⟩ := List.mem_flatMap.mp h
    have unmarked : ¬ ∃ d ∈ facts \ removed.toFinset, key ∈ marks d := by
      rintro ⟨d, hd, hk'⟩
      obtain ⟨hd, kept⟩ := Finset.mem_sdiff.mp hd
      obtain rfl := (storable c (among c hc)).eq_of_mem_marks (storable d hd) hk hk'
      exact kept (List.mem_toFinset.mpr hc)
    rw [described, if_neg unmarked, total_eq_zero_of_mem_marks hk]
    rfl
  case isFalse unmarked =>
    split
    case isTrue h =>
      obtain ⟨c, -, hk⟩ := List.mem_flatMap.mp h
      rw [described_of_mem_counterKeys _ hk, total_sdiff subset, count_flatMap_counterKeys nodup]
    case isFalse uncounted =>
      have zero : total removed.toFinset key = 0 := by
        rw [← count_flatMap_counterKeys nodup, List.count_eq_zero]
        exact uncounted
      have marked : (∃ c ∈ facts \ removed.toFinset, key ∈ marks c) ↔
          ∃ c ∈ facts, key ∈ marks c := by
        constructor
        · rintro ⟨c, hc, hk⟩
          exact ⟨c, (Finset.mem_sdiff.mp hc).1, hk⟩
        · rintro ⟨c, hc, hk⟩
          refine ⟨c, Finset.mem_sdiff.mpr ⟨hc, fun hr => unmarked ?_⟩, hk⟩
          exact List.mem_flatMap.mpr ⟨c, List.mem_toFinset.mp hr, hk⟩
      simp only [described, marked, total_sdiff subset, zero, Nat.sub_zero]

namespace Indexed

variable {t : Table} {facts : Finset Concept}

/-- Each fact has a key of its own. -/
theorem injOn_fact (h : Indexed t facts) : Set.InjOn Key.fact facts := fun c hc d hd e =>
  ((h.storable c hc).clean.key_inj (h.storable d hd).clean).mp (Key.fact_inj e)

theorem card_le_size (h : Indexed t facts) : facts.card ≤ t.size := by
  rw [← Finset.card_image_of_injOn h.injOn_fact, ← Std.ExtTreeMap.length_keys]
  refine (Finset.card_le_card (t := t.keys.toFinset) fun key hk => ?_).trans
    (List.toFinset_card_le _)
  obtain ⟨c, hc, rfl⟩ := Finset.mem_image.mp hk
  rw [List.mem_toFinset, Std.ExtTreeMap.mem_keys, Std.ExtTreeMap.mem_iff_isSome_getElem?, h.lookup,
    described_of_mem_marks hc (fact_mem_marks c)]
  rfl

theorem total_le_size (h : Indexed t facts) (key : String) : total facts key ≤ t.size := by
  refine le_trans ?_ h.card_le_size
  rw [Finset.card_eq_sum_ones]
  exact Finset.sum_le_sum fun c hc =>
    List.nodup_iff_count_le_one.mp (h.storable c hc).nodup_counterKeys key

/-- Lowering a count by what some of the facts count leaves what the others count. -/
theorem lowered_count {count all : Nat} (le : count ≤ all) (small : all < Text.wordCount) :
    (if UInt64.ofNat all ≤ UInt64.ofNat count then none
      else some (Value.ofCount (UInt64.ofNat all - UInt64.ofNat count))) =
        counterValue (all - count) := by
  have size : Text.wordCount = UInt64.size := rfl
  have compare : UInt64.ofNat all ≤ UInt64.ofNat count ↔ all ≤ count := by
    rw [UInt64.ofNat_le_iff (size ▸ small), UInt64.toNat_ofNat_of_lt' (by omega)]
  by_cases low : all ≤ count
  · rw [if_pos (compare.mpr low), Nat.sub_eq_zero_of_le low]
    rfl
  · rw [if_neg (fun h => low (compare.mp h)), counterValue_of_pos (by omega), UInt64.ofNat_sub le]

/-- The index entries and the edges of some facts, which are deleted first. -/
def firstDeleted (removed : List Concept) : List String :=
  (removed.flatMap indexEntries).map (·.2) ++ removed.flatMap Key.containments

theorem removal_eq (removed : List Concept) :
    removal removed = deleteKeys (firstDeleted removed) >>= fun _ =>
      lowerCounts (tally (removed.flatMap counterKeys)) >>= fun _ =>
        deleteKeys (removed.map Key.fact) := by
  rw [removal, map_fst_flatMap_indexEntries]
  rfl

/-- Deleting the index entries and the edges leaves the counters alone. -/
theorem getElem?_firstDeleted_of_counted (t : Table) {removed : List Concept} {key : String}
    (hk : key ∈ removed.flatMap counterKeys) :
    (t.eraseAll (firstDeleted removed))[key]? = t[key]? := by
  obtain ⟨c, -, counted⟩ := List.mem_flatMap.mp hk
  have unmarked : key ∉ removed.flatMap marks := not_mem_flatMap_marks_of_mem_counterKeys counted
  rw [mem_flatMap_marks_iff, not_or, not_or] at unmarked
  have kept : key ∉ firstDeleted removed := by
    simpa only [firstDeleted, List.mem_append, not_or] using unmarked.2
  rw [Table.getElem?_eraseAll, if_neg kept]

/-- A removal whose counters have been lowered deletes the keys of the facts. -/
theorem runDirect_removal {removed : List Concept} {lowered : Table}
    (run : (lowerCounts (tally (removed.flatMap counterKeys))).runDirect
      (t.eraseAll (firstDeleted removed)) = (.ok (), lowered)) :
    (removal removed).runDirect t = (.ok (lowered.deleteAll (removed.map Key.fact)).1,
      lowered.eraseAll (removed.map Key.fact)) := by
  rw [removal_eq, Transaction.runDirect_bind, runDirect_deleteKeys]
  simp only
  rw [Transaction.runDirect_bind, run]
  exact runDirect_deleteKeys _ lowered

/-- The counters are still there when the index entries and the edges have been deleted. -/
theorem storedCount_firstDeleted (h : Indexed t facts) {removed : List Concept} {key : String}
    (hk : key ∈ removed.flatMap counterKeys) :
    storedCount (t.eraseAll (firstDeleted removed))[key]? =
      .ok (UInt64.ofNat (total facts key)) := by
  obtain ⟨c, -, counted⟩ := List.mem_flatMap.mp hk
  rw [getElem?_firstDeleted_of_counted t hk, h.lookup, described_of_mem_counterKeys _ counted,
    storedCount_counterValue]

/-- The counters are lowered to what the other facts count. -/
theorem exists_lowered_eq (h : Indexed t facts) (small : t.size < Text.wordCount)
    {removed : List Concept} (nodup : removed.Nodup) (among : ∀ c ∈ removed, c ∈ facts) :
    ∃ lowered : Table,
      (lowerCounts (tally (removed.flatMap counterKeys))).runDirect
        (t.eraseAll (firstDeleted removed)) = (.ok (), lowered) ∧
      ∀ key : String, lowered[key]? = if key ∈ removed.flatMap counterKeys then
        counterValue (total facts key - (removed.flatMap counterKeys).count key)
          else (t.eraseAll (firstDeleted removed))[key]? := by
  obtain ⟨lowered, run, changed, others⟩ := runDirect_lowerCounts
    (fun key => UInt64.ofNat (total facts key)) (map_fst_tally_nodup _)
    fun e he => h.storedCount_firstDeleted (mem_tally_iff.mp he).1
  refine ⟨lowered, run, fun key => ?_⟩
  have le : (removed.flatMap counterKeys).count key ≤ total facts key := by
    rw [count_flatMap_counterKeys nodup]
    exact total_mono (fun c hc => among c (List.mem_toFinset.mp hc)) key
  split
  case isTrue hk =>
    rw [changed _ (mem_tally_iff.mpr ⟨hk, rfl⟩)]
    exact lowered_count le (Nat.lt_of_le_of_lt (h.total_le_size key) small)
  case isFalse hk =>
    refine others key fun hm => hk ?_
    obtain ⟨⟨k, n⟩, he, rfl⟩ := List.mem_map.mp hm
    exact (mem_tally_iff.mp he).1

/-- Removing some of the facts gives the table of the others. -/
theorem exists_removal_eq (h : Indexed t facts) (small : t.size < Text.wordCount)
    {removed : List Concept} (nodup : removed.Nodup) (among : ∀ c ∈ removed, c ∈ facts) :
    ∃ count left, (removal removed).runInPlace t = (.ok count, left) ∧
      ∀ key : String, left[key]? = described (facts \ removed.toFinset) key := by
  obtain ⟨lowered, run, lookup⟩ := h.exists_lowered_eq small nodup among
  refine ⟨(lowered.deleteAll (removed.map Key.fact)).1, lowered.eraseAll (removed.map Key.fact),
    ?_, ?_⟩
  · rw [Transaction.runInPlace, runDirect_removal run]
  · intro key
    rw [Table.getElem?_eraseAll, lookup, Table.getElem?_eraseAll, h.lookup,
      described_sdiff h.storable nodup among]
    simp only [mem_flatMap_marks_iff]
    -- A key is a counter, the key of a removed fact, or deleted first, if it changes at all.
    by_cases counted : key ∈ removed.flatMap counterKeys
    · obtain ⟨c, -, hk⟩ := List.mem_flatMap.mp counted
      have unmarked : key ∉ removed.flatMap marks := not_mem_flatMap_marks_of_mem_counterKeys hk
      rw [mem_flatMap_marks_iff, not_or, not_or] at unmarked
      simp only [unmarked.1, unmarked.2.1, unmarked.2.2, counted, if_true, if_false, or_self]
    · by_cases own : key ∈ removed.map Key.fact
      · simp only [own, if_true, true_or]
      · simp only [own, counted, firstDeleted, List.mem_append, if_false, false_or]

/-- Removing clean concepts succeeds. It removes the stored ones among them and the facts around
them, each once, and leaves the table of the other facts. -/
theorem exists_remove_eq {s : Store} (h : Indexed s.table facts)
    (small : s.table.size < Text.wordCount) {cs : List Concept} (clean : ∀ c ∈ cs, c.Clean)
    (base : FactBase) :
    ∃ removed count left, base.remove cs s = (.ok ⟨removed, count⟩,
        base.detach removed { s with table := left }) ∧
      Indexed left (facts \ removed.toFinset) ∧ removed.Nodup ∧
        ∀ d, d ∈ removed ↔ d ∈ facts ∧ ∃ c ∈ cs, c ∈ facts ∧ (d = c ∨ c ∈ d.inside) := by
  obtain ⟨removed, found, nodup, mem⟩ := h.exists_doomed_eq clean
  obtain ⟨count, left, run, lookup⟩ := h.exists_removal_eq small nodup fun c hc =>
    ((mem c).mp hc).1
  refine ⟨removed, count, left, ?_, ⟨fun c hc => ?_, fun c hc p hp => ?_, lookup⟩, nodup, mem⟩
  · rw [remove, found]
    simp only [Store.transact_eq, run]
  · exact h.storable c (Finset.mem_sdiff.mp hc).1
  · obtain ⟨hc, kept⟩ := Finset.mem_sdiff.mp hc
    refine Finset.mem_sdiff.mpr ⟨h.closed c hc p hp, fun hr => kept (List.mem_toFinset.mpr ?_)⟩
    -- What a part holds, or is, the fact holds.
    obtain ⟨-, d, hd, stored, holds⟩ := (mem p).mp (List.mem_toFinset.mp hr)
    exact (mem c).mpr ⟨hc, d, hd, stored,
      .inr (Concept.mem_inside_iff.mpr ⟨p, hp, holds.imp_left Eq.symm⟩)⟩

end Indexed

end ConceptSpace.FactBase
