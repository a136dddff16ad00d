import ConceptSpace.Proofs.Facts.Anchored
import ConceptSpace.Proofs.Facts.Soundness
import ConceptSpace.Proofs.Pattern.Determinate

/-!
# Which solutions a query finds

An index entry holds one choice of values for its mask, so that a query finds the solutions that
leave no choice: those of determinate rules that make no set of a sequence, and that bind the
variables which rules share to concepts without variables. Among these *regular* bindings, the
answers are the solutions of anchored rules, unless they bind a variable to a variable, which is
left out (`Indexed.exists_complete_answersWithin`). The order of the rules does not matter for this,
although the choice of the pivot depends on it.
-/

namespace ConceptSpace.FactBase

open Storage
open ConceptSpace.Concept (IsSelfFree IsAskable IsEntry IsDeterminate KeepsOrder ReadsAs Renames)
open Shape (numberedName)
open Bindings (Extends)

variable {rules patterns ground rest : List Concept} {rule r : Concept}
  {b cand extra all : Bindings}

/-! ## Regular bindings -/

/-- Bindings that leave no choice to a query. -/
structure IsRegular (rules : List Concept) (b : Bindings) : Prop where
  /-- The rules fit in one way only. -/
  determinate : ∀ r ∈ rules, r.IsDeterminate
  /-- No sequence becomes a set. -/
  keeps : ∀ r ∈ rules, KeepsOrder b r
  /-- Variables of several rules are bound to concepts without variables. -/
  shares : SharesGround rules b

theorem IsRegular.mono (h : IsRegular rules b) (fewer : ∀ r ∈ patterns, r ∈ rules) :
    IsRegular patterns b where
  determinate r hr := h.determinate r (fewer r hr)
  keeps r hr := h.keeps r (fewer r hr)
  shares := h.shares.mono fewer

/-- Regular bindings are regular for the other rules after those of the first have been put in. -/
theorem IsRegular.remaining (h : IsRegular (rule :: rest) all) (clean : ∀ r ∈ rule :: rest, r.Clean)
    (nodup : (rule :: rest).Nodup) (hc : Extends rule.vars ∅ cand)
    (cleanAll : all.AllValues Concept.Clean) (hca : cand.IsPartOf all) (hea : extra.IsPartOf all)
    (others : ∀ name : String, cand[name]? = none → extra[name]? = all[name]?) :
    (∀ r ∈ rest, ∀ name ∈ r.vars, ∀ value, cand[name]? = some value → value.IsGround) ∧
      IsRegular (rest.map (Concept.instantiate cand)) extra := by
  obtain ⟨shared, shares⟩ := h.shares.of_instances clean nodup hc hca hea
  have cleanCand : cand.AllValues Concept.Clean := hca.allValues cleanAll
  refine ⟨shared, fun q hq => ?_, fun q hq => ?_, shares⟩ <;>
    obtain ⟨r, hr, rfl⟩ := List.mem_map.mp hq <;>
    have cleanRule : r.Clean := clean r (by simp [hr])
  · exact (h.determinate r (by simp [hr])).instantiate cleanRule (shared r hr)
      ((h.keeps r (by simp [hr])).of_isPartOf cleanRule cleanCand hca)
  · refine (h.keeps r (by simp [hr])).instantiate cleanRule (shared r hr) cleanCand fun d hd => ?_
    refine (cleanRule.of_mem_cons_inside hd).instantiate_instantiate cleanCand cleanAll
      fun name hn => ?_
    exact instantiate_variable shared cleanAll hca others hr name
      (Concept.mem_vars_of_mem_cons_inside hd hn)

/-! ## Entries -/

section Entry

variable {places : Bindings} {values : List Concept} {c : Concept} (hr : rule.Clean)
  (found : rule.match? rule.mask = some places) (entry : IsEntry c rule.mask values)

include hr found entry in
/-- A rule reads as the fact of an entry under the bindings that the entry gives. -/
theorem readsAs_of_bindEntry (hc : c.Clean) (h : bindEntry places values = some cand) :
    ReadsAs cand rule c := by
  obtain ⟨names, perm, placed⟩ := hr.exists_isRenaming found
  have length : values.length = names.length :=
    (length_eq_of_isEntry_mask hr entry).trans perm.length_eq.symm
  have fits := hr.clean_mask.fits_of_match? hr found
  have reads := hr.clean_mask.readsAs_of_unify hc (Bindings.allValues_empty _) entry.matched
  obtain ⟨-, values_eq⟩ := extends_of_isRenaming placed length entry.cleanValues h
  rw [← fits.instantiates]
  refine (hr.clean_mask.readsAs_instantiate_iff_of_renames fits.clean (hr.exists_place found)
    fun number hn other e => ?_).mpr reads
  obtain ⟨i, hi, rfl⟩ := Bindings.mem_namesFrom_iff.mp (entry.vars.mem_iff.mp hn)
  have hi' : i < names.length := length ▸ hi
  obtain ⟨-, place⟩ := placed i names[i] (List.getElem?_eq_getElem hi')
  rw [Nat.zero_add, place] at e
  obtain rfl : names[i] = other := Concept.atom.inj (Option.some.inj e)
  rw [values_eq i names[i] (List.getElem?_eq_getElem hi')]
  exact Bindings.getElem?_numbered 0 values i

include hr found entry in
/-- The entry of a fact that a determinate rule reads as binds nothing else than was read. -/
theorem exists_bindEntry_of_readsAs (hc : c.Clean) (determinate : rule.IsDeterminate)
    (hb : b.AllValues Concept.Clean) (reads : ReadsAs b rule c) :
    ∃ cand, bindEntry places values = some cand ∧ cand.IsPartOf b := by
  obtain ⟨names, perm, placed⟩ := hr.exists_isRenaming found
  have fits := hr.clean_mask.fits_of_match? hr found
  have renames : Renames places rule.mask := hr.exists_place found
  have bound : ∀ number ∈ rule.mask.vars, ∀ other, places[number]? = some (.atom other) →
      ∃ value, b[other]? = some value ∧ Concept.startsWith '$' other = true := by
    intro number hn other e
    obtain ⟨_, isVariable, e'⟩ := renames number hn
    obtain rfl := Concept.atom.inj (Option.some.inj (e.symm.trans e'))
    have own : other ∈ rule.vars := by
      rw [← fits.instantiates, hr.clean_mask.mem_vars_instantiate]
      refine ⟨number, hn, ?_⟩
      rw [Concept.instantiate_atom_of_bound (List.mem_filter.mp hn).2 e, Concept.vars_atom,
        if_pos isVariable]
      exact List.mem_singleton_self other
    obtain ⟨value, e⟩ := Option.ne_none_iff_exists'.mp (reads.ne_none own)
    exact ⟨value, e, isVariable⟩
  -- What the bindings put into the rule, put into the mask.
  let through : Bindings := places.map fun _ place => place.instantiate b
  have lookup : ∀ name : String, through[name]? = places[name]?.map (Concept.instantiate b) :=
    fun name => Std.ExtTreeMap.getElem?_map
  have cleanThrough : through.AllValues Concept.Clean := fun name value e => by
    rw [lookup] at e
    obtain ⟨place, placed, rfl⟩ := Option.map_eq_some_iff.mp e
    exact (fits.clean placed).instantiate hb
  have whole : ReadsAs through rule.mask c := by
    rw [← fits.instantiates] at reads
    refine (hr.clean_mask.readsAs_instantiate_iff_of_renames fits.clean renames
      fun number hn other e => ?_).mp reads
    obtain ⟨value, e', isVariable⟩ := bound number hn other e
    rw [lookup, e, Option.map_some, Concept.instantiate_atom_of_bound isVariable e', e']
  obtain ⟨matched, fitted, part⟩ := hr.clean_mask.exists_unify_of_readsAs
    (.of_instantiate (fits.instantiates.symm ▸ determinate) hr.clean_mask renames) hc cleanThrough
    whole (Bindings.isPartOf_empty through)
  obtain rfl := Option.some.inj (fitted.symm.trans entry.matched)
  have length : values.length = names.length :=
    (length_eq_of_isEntry_mask hr entry).trans perm.length_eq.symm
  rw [bindEntry_eq_bindAll placed length]
  refine Bindings.exists_bindAll (Bindings.isPartOf_empty b) fun pair hp => ?_
  obtain ⟨i, hi, rfl⟩ := List.mem_iff_getElem.mp hp
  rw [List.length_zip, Nat.lt_min] at hi
  rw [List.getElem_zip]
  obtain ⟨isVariable, place⟩ := placed i names[i] (List.getElem?_eq_getElem hi.1)
  have number : (Bindings.numbered 0 values)[numberedName i]? = some values[i] := by
    simpa [hi.2] using Bindings.getElem?_numbered 0 values i
  obtain ⟨value, e⟩ := Option.ne_none_iff_exists'.mp
    (reads.ne_none (perm.mem_iff.mp (List.getElem_mem hi.1)))
  have := part number
  rw [lookup, place, Option.map_some, Concept.instantiate_atom_of_bound isVariable e] at this
  exact e.trans this

end Entry

/-! ## Counts -/

variable {t : Table} {facts : Finset Concept}

/-- If one mask fits a fact, so does every mask that as many facts are counted under. -/
theorem Indexed.exists_mem_masks_of_count_le (h : Indexed t facts)
    (small : t.size < Text.wordCount) {m n c : Concept} (hm : m.Clean) (hn : n.Clean)
    (le : UInt64.ofNat (total facts (Key.maskCount m)) ≤
      UInt64.ofNat (total facts (Key.maskCount n)))
    (hc : c ∈ facts) (masked : m ∈ c.masks) : ∃ d ∈ facts, n ∈ d.masks := by
  have exact_count : ∀ k : Concept,
      (UInt64.ofNat (total facts (Key.maskCount k))).toNat = total facts (Key.maskCount k) := by
    intro k
    refine UInt64.toNat_ofNat_of_lt' ?_
    rw [← h.length_listKeys_maskMatches]
    exact Nat.lt_of_le_of_lt (Table.length_listKeys_stem_le t _) small
  rw [UInt64.le_iff_toNat_le, exact_count, exact_count, h.total_maskCount hm,
    h.total_maskCount hn] at le
  have pos : 0 < (facts.filter (m ∈ ·.masks)).card :=
    Finset.card_pos.mpr ⟨c, Finset.mem_filter.mpr ⟨hc, masked⟩⟩
  obtain ⟨d, hd⟩ := Finset.card_pos.mp (Nat.lt_of_lt_of_le pos le)
  exact ⟨d, Finset.mem_filter.mp hd⟩

/-! ## One pivot -/

/-- The answers to rules, as far as they are regular: they are the solutions of anchored rules that
bind no variable to a variable. -/
def IsComplete (facts : Concept → Prop) (rules : List Concept) (found : List Bindings) : Prop :=
  ∀ b, IsRegular rules b →
    (b ∈ found ↔ Solves facts rules b ∧ Anchored rules ∧ b.isGround = true)

section Pivot

variable (h : Indexed t facts) (selfFree : ∀ c ∈ facts, IsSelfFree c) {c : Concept}
  {values : List Concept} (askable : ∀ r ∈ rule :: rest, IsAskable r)
  (nodup : (rule :: rest).Nodup) (plain : rule.HasPlainWord) {base : FactBase} {depth : Nat}
  (enough : rest.length < depth)
  (answered : ∀ rules : List Concept, (∀ r ∈ rules, IsAskable r) → rules.length < depth →
    ∃ found, base.answersWithin t false depth rules = .ok found ∧
      IsComplete (· ∈ facts) rules found)

include plain in
/-- Without other rules, bindings of the pivot are the solution. -/
theorem mem_singleton_iff_of_last (extended : Extends rule.vars ∅ cand)
    (fact : rule.instantiate cand ∈ facts) (isGround : cand.isGround = true) :
    b ∈ [cand] ↔ (Solves (· ∈ facts) [rule] b ∧ Anchored [rule] ∧ b.isGround = true) ∧
      cand.IsPartOf b := by
  have single : b = cand ↔ Solves (· ∈ facts) [rule] b ∧ cand.IsPartOf b :=
    solves_singleton_iff extended fact
  rw [List.mem_singleton]
  constructor
  · intro e
    obtain ⟨solves, part⟩ := single.mp e
    exact ⟨⟨solves, anchored_singleton plain, e ▸ isGround⟩, part⟩
  · rintro ⟨⟨solves, -⟩, part⟩
    exact single.mpr ⟨solves, part⟩

include h selfFree askable nodup plain enough answered in
/-- Bindings of the pivot are completed to the solutions that extend them. -/
theorem exists_complete_completedBy (extended : Extends rule.vars ∅ cand)
    (stored : cand.AllValues (· ∈ facts)) (fact : rule.instantiate cand ∈ facts)
    (isGround : cand.isGround = true) :
    ∃ found, completedBy (base.answersWithin t false depth) cand rest = .ok found ∧
      ∀ b, IsRegular (rule :: rest) b →
        (b ∈ found ↔ (Solves (· ∈ facts) (rule :: rest) b ∧ Anchored (rule :: rest) ∧
          b.isGround = true) ∧ cand.IsPartOf b) := by
  have clean : ∀ r ∈ rule :: rest, r.Clean := fun r hr => (askable r hr).clean
  have cleanFacts : ∀ c, c ∈ facts → c.Clean := fun c hc => (selfFree c hc).clean
  have values : cand.AllValues IsSelfFree := fun _ _ e => selfFree _ (stored e)
  have first : Solves (· ∈ facts) [rule] cand := ((solves_singleton_iff extended fact).mp rfl).1
  by_cases last : rest = []
  · subst last
    exact ⟨[cand], rfl, fun b _ => mem_singleton_iff_of_last plain extended fact isGround⟩
  have instances : ∀ r ∈ rest.map (Concept.instantiate cand), IsAskable r := by
    intro _ hr
    obtain ⟨q, hq, rfl⟩ := List.mem_map.mp hr
    exact (askable q (by simp [hq])).instantiate values
  have mem_remaining := fun r =>
    Concept.mem_distinct (c := r) fun r hr => (instances r hr).clean
  have askable' := fun r hr => instances r ((mem_remaining r).mp hr)
  have fewer : (Concept.distinct (rest.map (Concept.instantiate cand))).length < depth :=
    Nat.lt_of_le_of_lt ((Concept.distinct_sublist _).length_le.trans
      (Nat.le_of_eq (List.length_map _))) enough
  obtain ⟨completions, e, complete⟩ := answered _ askable' fewer
  obtain ⟨_, e', sound⟩ := h.exists_sound_answersWithin selfFree base askable' fewer
  obtain rfl := Except.ok.inj (e'.symm.trans e)
  refine ⟨_, completedBy_of_ne_nil last (fun r hr => (askable r (by simp [hr])).toIsSelfFree)
    values e, fun b regular => ?_⟩
  have cleanCand : cand.AllValues Concept.Clean := fun _ _ e => (values e).clean
  rw [List.mem_filterMap]
  constructor
  · rintro ⟨extra, he, merged⟩
    have soundExtra := (sound extra he).congr fun r => (mem_remaining r).symm
    have soundAll := Sound.merge clean extended fact cleanFacts nodup stored soundExtra merged
    obtain ⟨hca, hea, names⟩ := isPartOf_of_merge? cleanCand
      (fun _ _ e => cleanFacts _ (soundExtra.stored e)) merged
    obtain ⟨shared, regular'⟩ := regular.remaining clean nodup extended
      (fun _ _ e => cleanFacts _ (soundAll.stored e)) hca hea
      fun name => getElem?_eq_of_free hea names
    obtain ⟨-, anchored, ground⟩ := (complete extra (regular'.mono fun r hr =>
      (mem_remaining r).mp hr)).mp he
    refine ⟨⟨soundAll.solves regular.shares, ?_, isGround_iff.mpr fun name value e => ?_⟩, hca⟩
    · rw [← anchored_rest_iff clean extended shared plain]
      exact (anchored_congr fun r _ => mem_remaining r).mp anchored
    · rcases eq_some_or_of_ne_none_iff hca hea names e with e | e
      · exact isGround_iff.mp isGround e
      · exact isGround_iff.mp ground e
  · rintro ⟨⟨solves, anchored, ground⟩, part⟩
    have valuesAll : b.AllValues IsSelfFree :=
      solves.allValues_of_closed selfFree (fun _ hd _ hp => hd.of_mem_parts hp) clean
    have cleanAll : b.AllValues Concept.Clean := fun _ _ e => (valuesAll e).clean
    obtain ⟨shared, regular'⟩ := regular.remaining clean nodup extended cleanAll part
      (without_isPartOf b cand) fun name free => by rw [getElem?_without, if_pos free]
    obtain ⟨solves', merged⟩ :=
      merge?_without_of_solves first.binds (List.forall_mem_cons.mp clean).2 shared cleanAll
        (show Solves (· ∈ facts) ([rule] ++ rest) b from solves) part
    refine ⟨_, (complete _ (regular'.mono fun r hr => (mem_remaining r).mp hr)).mpr ⟨?_, ?_, ?_⟩,
      merged⟩
    · exact (solves_congr mem_remaining).mpr solves'
    · rw [anchored_congr fun r _ => mem_remaining r, anchored_rest_iff clean extended shared plain]
      exact anchored
    · exact isGround_iff.mpr fun _ _ e => isGround_iff.mp ground (without_isPartOf b cand e)

include h selfFree askable nodup plain enough answered in
/-- The entry of a fact leads to the solutions that make the pivot this fact, and to no other
regular bindings. -/
theorem exists_complete_answersOfEntry {places : Bindings}
    (placed : rule.match? rule.mask = some places) (hc : c ∈ facts)
    (entry : IsEntry c rule.mask values) :
    ∃ found, base.answersOfEntry t false depth places rest values = .ok found ∧
      ∀ b, IsRegular (rule :: rest) b →
        (b ∈ found ↔ (Solves (· ∈ facts) (rule :: rest) b ∧ Anchored (rule :: rest) ∧
          b.isGround = true) ∧ rule.instantiate b = c) := by
  have pivot := askable rule (by simp)
  have exists_candidate : ∀ b, IsRegular (rule :: rest) b →
      Solves (· ∈ facts) (rule :: rest) b → rule.instantiate b = c →
        ∃ cand, bindEntry places values = some cand ∧ cand.IsPartOf b := by
    rintro b regular solves rfl
    have valuesAll : b.AllValues IsSelfFree := solves.allValues_of_closed selfFree
      (fun _ hd _ hp => hd.of_mem_parts hp) fun r hr => (askable r hr).clean
    have reads := pivot.clean.readsAs_instantiate (regular.keeps rule (by simp))
      fun name hn => (solves.binds name).mpr ⟨rule, by simp, hn⟩
    exact exists_bindEntry_of_readsAs pivot.clean placed entry (selfFree _ hc).clean
      (regular.determinate rule (by simp)) (fun _ _ e => (valuesAll e).clean) reads
  rw [answersOfEntry]
  cases candidate : bindEntry places values with
  | none =>
    refine ⟨[], rfl, fun b regular => ?_⟩
    simp only [List.not_mem_nil, false_iff]
    rintro ⟨⟨solves, -⟩, same⟩
    obtain ⟨cand, e, -⟩ := exists_candidate b regular solves same
    rw [e] at candidate
    contradiction
  | some cand =>
    obtain ⟨extended, among, becomes⟩ := becomes_of_bindEntry pivot.clean placed entry candidate
    have fact : rule.instantiate cand ∈ facts := becomes ▸ hc
    have part_iff : ∀ b, IsRegular (rule :: rest) b → Solves (· ∈ facts) (rule :: rest) b →
        (cand.IsPartOf b ↔ rule.instantiate b = c) := by
      intro b regular solves
      constructor
      · intro part
        rw [← becomes]
        refine Concept.instantiate_congr fun name hn => ?_
        obtain ⟨value, e⟩ := Option.ne_none_iff_exists'.mp (extended.ne_none_iff.mpr hn)
        rw [e, part e]
      · intro same
        obtain ⟨cand', e, part⟩ := exists_candidate b regular solves same
        obtain rfl : cand' = cand := Option.some.inj (e.symm.trans candidate)
        exact part
    by_cases isGround : cand.isGround = true
    case neg =>
      refine ⟨[], by simp only [isGround]; rfl, fun b regular => ?_⟩
      simp only [List.not_mem_nil, false_iff]
      rintro ⟨⟨solves, -, ground⟩, same⟩
      have part := (part_iff b regular solves).mpr same
      exact isGround (isGround_iff.mpr fun _ _ e => isGround_iff.mp ground (part e))
    case pos =>
      have stored : cand.AllValues (· ∈ facts) := fun name value e =>
        mem_of_isEntry h.closed hc entry (among e)
      obtain ⟨found, e, complete⟩ := exists_complete_completedBy h selfFree askable nodup plain
        enough answered extended stored fact isGround
      refine ⟨found, by simp only [isGround]; exact e, fun b regular => ?_⟩
      rw [complete b regular]
      exact and_congr_right fun holds => part_iff b regular holds.1

include h selfFree askable nodup enough answered in
/-- The index entries of the pivot together lead to all regular solutions, if no other rule is of a
mask with more entries. -/
theorem exists_complete_entries (small : t.size < Text.wordCount)
    (opened : ∀ r ∈ rule :: rest, ¬ r.IsGround)
    (most : ∀ r ∈ rule :: rest, UInt64.ofNat (total facts (Key.maskCount r.mask)) ≤
      UInt64.ofNat (total facts (Key.maskCount rule.mask)))
    {places : Bindings} (placed : rule.match? rule.mask = some places) :
    ∃ entries answers, maskEntries t rule.mask = .ok entries ∧
      entries.mapM (base.answersOfEntry t false depth places rest) = .ok answers ∧
        IsComplete (· ∈ facts) (rule :: rest) answers.flatten := by
  have pivot := askable rule (by simp)
  have clean : ∀ r ∈ rule :: rest, r.Clean := fun r hr => (askable r hr).clean
  have isPattern : ∀ r ∈ rule :: rest, r.isPattern = true := fun r hr =>
    (askable r hr).isPattern_iff.mpr (opened r hr)
  have plain_of_masked : ∀ c ∈ facts, rule.mask ∈ c.masks → rule.HasPlainWord := fun c hc masked =>
    pivot.clean.hasPlainWord_mask_iff.mp ((h.storable c hc).clean.of_mem_masks masked).2.2.1
  obtain ⟨entries, listed, -, mem_entries⟩ := h.exists_maskEntries_eq pivot.clean.clean_mask
  obtain ⟨answers, e, related⟩ := Sequence.exists_mapM_eq_ok
    (R := fun values found => ∃ c, IsEntry c rule.mask values ∧
      ∀ b, IsRegular (rule :: rest) b →
        (b ∈ found ↔ (Solves (· ∈ facts) (rule :: rest) b ∧ Anchored (rule :: rest) ∧
          b.isGround = true) ∧ rule.instantiate b = c)) fun values hv => by
    obtain ⟨c, hc, masked, entry⟩ := (mem_entries values).mp hv
    obtain ⟨found, e, complete⟩ := exists_complete_answersOfEntry h selfFree askable nodup
      (plain_of_masked c hc masked) enough answered placed hc entry
    exact ⟨found, e, c, entry, complete⟩
  refine ⟨entries, answers, listed, e, fun b regular => ?_⟩
  rw [List.mem_flatten]
  constructor
  · rintro ⟨found, hf, hb⟩
    obtain ⟨values, -, c, -, complete⟩ := Sequence.exists_of_mem_right related hf
    exact ((complete b regular).mp hb).1
  · intro solution
    obtain ⟨solves, anchored, -⟩ := id solution
    have cleanAll : b.AllValues Concept.Clean := fun _ _ e => (solves.allValues_of_closed selfFree
      (fun _ hd _ hp => hd.of_mem_parts hp) clean e).clean
    have masked : ∀ r ∈ rule :: rest, r.HasPlainWord → r.mask ∈ (r.instantiate b).masks := by
      intro r hr plain
      have reads := (clean r hr).readsAs_instantiate (regular.keeps r hr) fun name hn =>
        (solves.binds name).mpr ⟨r, hr, hn⟩
      exact reads.covers.mask_mem_masks (clean r hr) ((clean r hr).instantiate cleanAll)
        (isPattern r hr) plain
    -- A rule with a plain word has an entry, so that the pivot has one, which tells that it has a
    -- plain word, too.
    obtain ⟨q, hq, plain⟩ := anchored.exists_hasPlainWord (List.mem_cons_self ..)
      (opened rule (by simp))
    obtain ⟨d, hd, fits⟩ := h.exists_mem_masks_of_count_le small (clean q hq).clean_mask
      pivot.clean.clean_mask (most q hq) (solves.holds q hq) (masked q hq plain)
    have masked := masked rule (by simp) (plain_of_masked d hd fits)
    have fact := solves.holds rule (by simp)
    obtain ⟨values, entry⟩ := (h.storable _ fact).exists_isEntry masked
    obtain ⟨found, hf, c, entry', complete⟩ := Sequence.exists_of_mem_left related
      ((mem_entries values).mpr ⟨_, fact, masked, entry⟩)
    exact ⟨found, hf, (complete b regular).mpr
      ⟨solution, entry.instantiates.symm.trans entry'.instantiates⟩⟩

end Pivot

/-! ## All pivots -/

/-- Rules are answered completely, if there are enough pivots for them. -/
theorem Indexed.exists_complete_answersWithin (h : Indexed t facts)
    (small : t.size < Text.wordCount) (selfFree : ∀ c ∈ facts, IsSelfFree c) (base : FactBase)
    {depth : Nat} {rules : List Concept} (askable : ∀ r ∈ rules, IsAskable r)
    (enough : rules.length < depth) :
    ∃ found, base.answersWithin t false depth rules = .ok found ∧
      IsComplete (· ∈ facts) rules found := by
  -- Every pivot uses up a rule, and what is put into the others does not add to them.
  induction depth generalizing rules with
  | zero => simp at enough
  | succ depth ih =>
    have clean : ∀ r, IsAskable r → r.Clean := fun _ hr => hr.clean
    obtain ⟨patterns, ground, parts, split⟩ :=
      exists_isSplit clean (fun _ hr => hr.isPattern_iff) askable
    have solves_iff : ∀ b, Solves (· ∈ facts) rules b ↔
        (∀ r ∈ ground, r ∈ facts) ∧ Solves (· ∈ facts) patterns b := fun _ => split.solves_iff clean
    have anchored_iff : Anchored rules ↔ Anchored patterns := anchored_congr fun r opened => by
      rw [split.mem, List.mem_append, or_iff_left fun hr => opened (split.groundRules r hr).2]
    rcases h.answersWithin_cases base depth clean parts split with ⟨missing, e⟩ | ⟨stored, found⟩
    · exact ⟨[], e, fun b _ => by simp [solves_iff, missing]⟩
    have complete_of_patterns : ∀ found, IsComplete (· ∈ facts) patterns found →
        IsComplete (· ∈ facts) rules found := by
      intro found complete b regular
      have among : ∀ r ∈ patterns, r ∈ rules := fun r hr =>
        (split.mem r).mpr (List.mem_append_left _ hr)
      rw [solves_iff, and_iff_right stored, anchored_iff]
      exact complete b (regular.mono among)
    rcases found with ⟨rfl, e⟩ | ⟨rule, rest, places, perm, shorter, most, placed, found⟩
    · refine ⟨[∅], e, complete_of_patterns _ fun b _ => ?_⟩
      rw [List.mem_singleton, solves_nil_iff]
      refine (and_iff_left_of_imp ?_).symm
      rintro rfl
      exact ⟨fun _ _ => by simp, isGround_iff.mpr (Bindings.allValues_empty _)⟩
    · have patterns : ∀ r ∈ rule :: rest, IsAskable r ∧ ¬ r.IsGround := fun r hr =>
        split.openRules r (perm.mem_iff.mp hr)
      obtain ⟨entries, answers, listed, e, complete⟩ := exists_complete_entries h selfFree
        (fun r hr => (patterns r hr).1) (perm.nodup_iff.mpr split.nodup) (by omega)
        (fun others askable fewer => ih askable fewer) small (fun r hr => (patterns r hr).2)
        (fun r hr => most r (perm.mem_iff.mp hr)) placed
      refine ⟨_, found entries answers listed e, complete_of_patterns _ fun b regular => ?_⟩
      have regular' := regular.mono fun r hr => perm.mem_iff.mp hr
      have kept : b ∈ answers.flatten.filter (fun answer => false || answer.isGround) ↔
          b ∈ answers.flatten := by
        rw [List.mem_filter, Bool.false_or]
        exact and_iff_left_of_imp fun hb => ((complete b regular').mp hb).2.2
      rw [kept, complete b regular', solves_congr fun r => perm.mem_iff,
        anchored_congr fun r _ => perm.mem_iff]

/-! ## Words that are looked up -/

/-- The rules that are looked up by their masks are answered alone, if all others are stored. -/
theorem answersWithin_eq_of_stored {base : FactBase} {depth : Nat} {rules : List Concept}
    (stored : ¬ (base.existing t ((Concept.distinct rules).filter fun r => !r.isPattern)).length <
      ((Concept.distinct rules).filter fun r => !r.isPattern).length) :
    base.answersWithin t false (depth + 1) rules =
      base.answersWithin t false (depth + 1) ((Concept.distinct rules).filter (·.isPattern)) := by
  have keys : (((Concept.distinct rules).filter (·.isPattern)).map Concept.key).Nodup :=
    (Sequence.nodup_keys_distinctBy Concept.key rules).sublist (List.filter_sublist.map _)
  have none : base.existing t [] = [] := by rw [existing, select_eq_filter]; rfl
  rw [answersWithin, answersWithin, Concept.distinct_eq_self keys]
  simp [List.partition_eq_filter_filter, List.filter_filter, Function.comp_def, none, if_neg stored]

section Patterns

variable {rules : List Concept} (free : ∀ r ∈ rules, IsSelfFree r)

include free in
/-- The rules that are looked up by their masks can be asked for. -/
theorem isAskable_of_mem_patterns :
    ∀ r ∈ (Concept.distinct rules).filter (·.isPattern), IsAskable r := by
  intro r hr
  obtain ⟨hr, isPattern⟩ := List.mem_filter.mp hr
  exact ⟨free r ((Concept.distinct_sublist rules).subset hr),
    .inr (Concept.isPattern_iff.mp isPattern).1⟩

theorem length_patterns_lt (rules : List Concept) :
    ((Concept.distinct rules).filter (·.isPattern)).length < rules.length + 1 :=
  Nat.lt_succ_of_le (List.filter_sublist.trans (Concept.distinct_sublist rules)).length_le

include free in
/-- What answers bind are facts. -/
theorem Indexed.stored_of_answers (h : Indexed t facts) (selfFree : ∀ c ∈ facts, IsSelfFree c)
    {base : FactBase} {found : List Bindings} (ok : base.answers t rules = .ok found) :
    ∀ b ∈ found, b.AllValues (· ∈ facts) := by
  by_cases missing :
      (base.existing t ((Concept.distinct rules).filter fun r => !r.isPattern)).length <
        ((Concept.distinct rules).filter fun r => !r.isPattern).length
  · have none : base.answers t rules = .ok [] :=
      answers_of_missing List.partition_eq_filter_filter missing
    obtain rfl := Except.ok.inj (none.symm.trans ok)
    simp
  · obtain ⟨_, e, sound⟩ := h.exists_sound_answersWithin selfFree base
      (isAskable_of_mem_patterns free) (length_patterns_lt rules)
    have e := answers_eq_ok ((answersWithin_eq_of_stored missing).trans e)
    obtain rfl := Except.ok.inj (e.symm.trans ok)
    exact fun b hb => (sound b hb).stored

end Patterns

/-- A rule that is only a variable is looked up like a word, so that it has to be a fact as it
stands. The other rules with variables are answered completely. -/
theorem Indexed.exists_complete_answers (h : Indexed t facts) (small : t.size < Text.wordCount)
    (selfFree : ∀ c ∈ facts, IsSelfFree c) (base : FactBase) {rules : List Concept}
    (free : ∀ r ∈ rules, IsSelfFree r) :
    ∃ found, base.answers t rules = .ok found ∧
      ∀ b, IsRegular (rules.filter (·.isPattern)) b →
        (b ∈ found ↔ (∀ r ∈ rules, r.isPattern = false → r ∈ facts) ∧
          Solves (· ∈ facts) (rules.filter (·.isPattern)) b ∧
            Anchored (rules.filter (·.isPattern)) ∧ b.isGround = true) := by
  have clean : ∀ r ∈ rules, r.Clean := fun r hr => (free r hr).clean
  have mem_rules := fun r => Concept.mem_distinct (c := r) clean
  have mem_patterns : ∀ r, r ∈ (Concept.distinct rules).filter (·.isPattern) ↔
      r ∈ rules.filter (·.isPattern) := fun r => by simp only [List.mem_filter, mem_rules]
  have lookup := h.existing_lt_iff base
    fun r (hr : r ∈ (Concept.distinct rules).filter fun r => !r.isPattern) =>
      clean r ((mem_rules r).mp (List.mem_filter.mp hr).1)
  have stored_iff : (∀ r ∈ (Concept.distinct rules).filter fun r => !r.isPattern, r ∈ facts) ↔
      ∀ r ∈ rules, r.isPattern = false → r ∈ facts := by simp [List.mem_filter, mem_rules]
  rw [stored_iff] at lookup
  by_cases stored : ∀ r ∈ rules, r.isPattern = false → r ∈ facts
  case neg =>
    exact ⟨[], answers_of_missing List.partition_eq_filter_filter (lookup.mpr stored),
      fun b _ => by simp [stored]⟩
  case pos =>
    obtain ⟨found, e, complete⟩ := h.exists_complete_answersWithin small selfFree base
      (isAskable_of_mem_patterns free) (length_patterns_lt rules)
    refine ⟨found, answers_eq_ok ((answersWithin_eq_of_stored fun missing =>
      lookup.mp missing stored).trans e), fun b regular => ?_⟩
    · rw [complete b (regular.mono fun r hr => (mem_patterns r).mp hr), solves_congr mem_patterns,
        anchored_congr fun r _ => mem_patterns r, and_iff_right stored]

end ConceptSpace.FactBase
