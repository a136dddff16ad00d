import ConceptSpace.Proofs.Facts.History
import ConceptSpace.Proofs.Facts.Solutions
import ConceptSpace.Proofs.Pattern.Places

/-!
# The pivot of a query

The steps by which a query answers one of its rules: the choice of the rule (`exists_pivot_eq`), the
index entries of its mask (`exists_maskEntries_eq`), and the bindings that an entry gives to the
variables of the rule (`becomes_of_bindEntry`, and for rules without sets `extends_of_bindEntry` and
`exists_bindEntry`).
-/

namespace ConceptSpace.FactBase

open Storage
open ConceptSpace.Concept (IsPlainFact IsRule IsEntry)
open Shape (numberedName)
open Bindings (Extends)

/-! ## Groups -/

/-- Rules in groups that have a mask each. -/
structure IsGrouping (groups : List (Concept × List Concept)) (rules : List Concept) : Prop where
  /-- Each rule is in one group. -/
  perm : (groups.flatMap (·.2)).Perm rules
  /-- No two groups have the same mask. -/
  apart : (groups.map (·.1.key)).Nodup
  /-- A group starts with a rule of its mask. -/
  first : ∀ group ∈ groups, ∃ rule others, group.2 = rule :: others ∧ rule.mask = group.1
  /-- The rules of a group have its mask. -/
  masks : ∀ group ∈ groups, ∀ rule ∈ group.2, rule.mask.key = group.1.key

/-- Groups with a rule put into the group of its mask. -/
def joinGroup (groups : List (Concept × List Concept)) (rule : Concept) :
    List (Concept × List Concept) :=
  groups.map fun group => if group.1.same rule.mask then (group.1, group.2 ++ [rule]) else group

/-- Groups with a rule put into the group of its mask, or into a new one. -/
def addToGroups (groups : List (Concept × List Concept)) (rule : Concept) :
    List (Concept × List Concept) :=
  if groups.any (·.1.same rule.mask) then joinGroup groups rule
  else groups ++ [(rule.mask, [rule])]

theorem groupByMask_eq (rules : List Concept) : groupByMask rules = rules.foldl addToGroups [] :=
  rfl

section Groups

variable {groups : List (Concept × List Concept)} {rules : List Concept} {rule : Concept}

theorem map_key_joinGroup : (joinGroup groups rule).map (·.1.key) = groups.map (·.1.key) := by
  rw [joinGroup, List.map_map]
  refine List.map_congr_left fun group _ => ?_
  rw [Function.comp_apply]
  split <;> rfl

theorem joinGroup_of_not_mem (absent : rule.mask.key ∉ groups.map (·.1.key)) :
    joinGroup groups rule = groups := by
  refine (List.map_congr_left fun group hg => if_neg fun same => absent ?_).trans
    (List.map_id groups)
  rw [Concept.same, beq_iff_eq] at same
  exact List.mem_map.mpr ⟨group, hg, same⟩

theorem flatMap_joinGroup_perm (apart : (groups.map (·.1.key)).Nodup)
    (found : groups.any (·.1.same rule.mask) = true) :
    ((joinGroup groups rule).flatMap (·.2)).Perm (groups.flatMap (·.2) ++ [rule]) := by
  induction groups with
  | nil => simp at found
  | cons group groups ih =>
    obtain ⟨fresh, apart⟩ := List.nodup_cons.mp apart
    have step : joinGroup (group :: groups) rule =
        (if group.1.same rule.mask then (group.1, group.2 ++ [rule]) else group) ::
          joinGroup groups rule := rfl
    rw [step, List.flatMap_cons, List.flatMap_cons]
    by_cases same : group.1.same rule.mask = true
    · -- No other group has the mask, so that the others stay as they are.
      have others : joinGroup groups rule = groups := by
        refine joinGroup_of_not_mem ?_
        rw [Concept.same, beq_iff_eq] at same
        exact same ▸ fresh
      rw [others, if_pos same]
      simp only [List.append_assoc]
      exact List.Perm.append_left _ List.perm_append_comm
    · rw [if_neg same, List.append_assoc]
      refine List.Perm.append_left _ (ih apart ?_)
      simpa [same] using found

theorem IsGrouping.joinGroup (h : IsGrouping groups rules)
    (found : groups.any (·.1.same rule.mask) = true) :
    IsGrouping (joinGroup groups rule) (rules ++ [rule]) where
  perm := (flatMap_joinGroup_perm h.apart found).trans (h.perm.append_right _)
  apart := by
    rw [map_key_joinGroup]
    exact h.apart
  first := by
    intro group hg
    obtain ⟨old, ho, rfl⟩ := List.mem_map.mp hg
    obtain ⟨first, others, e, mask⟩ := h.first old ho
    split
    · exact ⟨first, others ++ [rule], by simp [e], mask⟩
    · exact ⟨first, others, e, mask⟩
  masks := by
    intro group hg member hm
    obtain ⟨old, ho, rfl⟩ := List.mem_map.mp hg
    split at hm
    case isTrue same =>
      rw [if_pos same]
      rcases List.mem_append.mp hm with hm | hm
      · exact h.masks old ho member hm
      · rw [Concept.same, beq_iff_eq] at same
        rw [List.mem_singleton.mp hm, same]
    case isFalse other =>
      rw [if_neg other]
      exact h.masks old ho member hm

theorem IsGrouping.newGroup (h : IsGrouping groups rules)
    (absent : ¬ groups.any (·.1.same rule.mask) = true) :
    IsGrouping (groups ++ [(rule.mask, [rule])]) (rules ++ [rule]) where
  perm := by simpa using h.perm.append_right [rule]
  apart := by
    rw [List.map_append, List.nodup_append]
    refine ⟨h.apart, by simp, ?_⟩
    rintro key hk other ho rfl
    obtain ⟨group, hg, e⟩ := List.mem_map.mp hk
    refine absent (List.any_eq_true.mpr ⟨group, hg, ?_⟩)
    rw [Concept.same, beq_iff_eq]
    exact e.trans (by simpa using ho)
  first := by
    intro group hg
    rcases List.mem_append.mp hg with hg | hg
    · exact h.first group hg
    · obtain rfl : group = (rule.mask, [rule]) := by simpa using hg
      exact ⟨rule, [], rfl, rfl⟩
  masks := by
    intro group hg member hm
    rcases List.mem_append.mp hg with hg | hg
    · exact h.masks group hg member hm
    · obtain rfl : group = (rule.mask, [rule]) := by simpa using hg
      rw [List.mem_singleton.mp hm]

theorem IsGrouping.foldl_addToGroups (h : IsGrouping groups rules) (more : List Concept) :
    IsGrouping (more.foldl addToGroups groups) (rules ++ more) := by
  induction more generalizing groups rules with
  | nil => rwa [List.append_nil]
  | cons rule more ih =>
    have next : IsGrouping (addToGroups groups rule) (rules ++ [rule]) := by
      unfold addToGroups
      split
      case isTrue found => exact h.joinGroup found
      case isFalse absent => exact h.newGroup absent
    have := ih next
    rwa [List.append_assoc] at this

end Groups

/-- Grouping rules by their masks loses none. -/
theorem isGrouping_groupByMask (rules : List Concept) : IsGrouping (groupByMask rules) rules := by
  have start : IsGrouping [] [] := ⟨.nil, by simp, by simp, by simp⟩
  rw [groupByMask_eq]
  exact start.foldl_addToGroups rules

variable {t : Table} {facts : Finset Concept}

/-- A group with the number of facts that are counted under its mask. -/
def withCount (facts : Finset Concept) (group : Concept × List Concept) :
    UInt64 × Concept × List Concept :=
  (UInt64.ofNat (total facts (Key.maskCount group.1)), group)

theorem Indexed.mapM_maskCount_eq (h : Indexed t facts) (groups : List (Concept × List Concept)) :
    groups.mapM (fun group => do
      return (← maskCount t group.1, group) : _ → Except Error (UInt64 × Concept × List Concept)) =
        .ok (groups.map (withCount facts)) := by
  refine Sequence.mapM_eq_ok fun group _ => ?_
  rw [maskCount, h.storedCount_eq]
  rfl

/-- The pivot is one of the rules; there is none only without rules. -/
theorem Indexed.exists_pivot_eq (h : Indexed t facts) (rules : List Concept) :
    (rules = [] ∧ pivot t rules = .ok none) ∨
      ∃ rule rest, pivot t rules = .ok (some (rule.mask, rule, rest)) ∧
        (rule :: rest).Perm rules ∧ ∀ r ∈ rules,
          UInt64.ofNat (total facts (Key.maskCount r.mask)) ≤
            UInt64.ofNat (total facts (Key.maskCount rule.mask)) := by
  have grouping := isGrouping_groupByMask rules
  have counted := h.mapM_maskCount_eq (groupByMask rules)
  have perm := Sequence.sortBy_perm (fun a b => decide (b.1 ≤ a.1))
    ((groupByMask rules).map (withCount facts))
  have sortedBy : (Sequence.sortBy (fun a b => decide (b.1 ≤ a.1))
      ((groupByMask rules).map (withCount facts))).Pairwise
        (fun a b => decide (b.1 ≤ a.1) = true) := by
    refine Sequence.pairwise_sortBy (fun a b => ?_) (fun a b c hab hbc => ?_) _
    · simpa using UInt64.le_total b.1 a.1
    · simp only [decide_eq_true_eq] at *
      exact UInt64.le_trans hbc hab
  have all : ((groupByMask rules).map (withCount facts)).flatMap (·.2.2) =
      (groupByMask rules).flatMap (·.2) := by
    rw [List.flatMap_map]
    rfl
  cases sorted : Sequence.sortBy (fun a b => decide (b.1 ≤ a.1))
      ((groupByMask rules).map (withCount facts)) with
  | nil =>
    rw [sorted] at perm
    have none : groupByMask rules = [] := List.map_eq_nil_iff.mp perm.symm.eq_nil
    have empty := grouping.perm
    rw [none] at empty
    refine .inl ⟨empty.symm.eq_nil, ?_⟩
    rw [pivot, counted, Sequence.ok_bind, sorted]
    rfl
  | cons best groups =>
    rw [sorted] at perm sortedBy
    have chosen : best ∈ (groupByMask rules).map (withCount facts) := perm.mem_iff.mp (by simp)
    obtain ⟨group, hg, rfl⟩ := List.mem_map.mp chosen
    obtain ⟨rule, others, members, mask⟩ := grouping.first group hg
    obtain ⟨m, rs⟩ := group
    obtain rfl : rs = rule :: others := members
    obtain rfl : rule.mask = m := mask
    refine .inr ⟨rule, others ++ groups.flatMap (·.2.2), ?_, ?_, fun r hr => ?_⟩
    · rw [pivot, counted, Sequence.ok_bind, sorted]
      rfl
    · have := (perm.flatMap_right (·.2.2)).trans (all ▸ grouping.perm)
      simpa [withCount] using this
    -- The rule is in a group, and no group has a higher count than the first.
    · obtain ⟨group, hg, hr⟩ := List.mem_flatMap.mp (grouping.perm.mem_iff.mpr hr)
      have same : Key.maskCount r.mask = Key.maskCount group.1 := by
        rw [Key.maskCount, grouping.masks group hg r hr, Key.maskCount]
      rw [same]
      rcases List.mem_cons.mp (perm.mem_iff.mpr (List.mem_map_of_mem hg)) with e | later
      · have mask : group.1 = rule.mask := congrArg (·.2.1) e
        rw [mask]
        exact UInt64.le_refl _
      · exact of_decide_eq_true ((List.pairwise_cons.mp sortedBy).1 _ later)

/-- The groups that have been counted are the groups of the rules. -/
theorem map_snd_counted {rules : List Concept} {counted : List (UInt64 × Concept × List Concept)}
    (h : (groupByMask rules).mapM (fun group => do return (← maskCount t group.1, group)) =
      (.ok counted : Except Error _)) : counted.map (·.2) = groupByMask rules := by
  have same : List.Forall₂ Eq (groupByMask rules) (counted.map (·.2)) := by
    refine List.forall₂_map_right_iff.mpr
      ((Sequence.forall₂_of_mapM_eq_ok h).imp fun group entry found => ?_)
    obtain ⟨count, -, found⟩ := Sequence.exists_of_bind_eq_ok found
    obtain rfl := Except.ok.inj found
    rfl
  rw [List.forall₂_eq_eq_eq] at same
  exact same.symm

/-- The pivot and the remaining rules are the rules, and the mask is that of the pivot. -/
theorem perm_of_pivot {rules rest : List Concept} {mask rule : Concept}
    (h : pivot t rules = .ok (some (mask, rule, rest))) :
    rule.mask = mask ∧ (rule :: rest).Perm rules := by
  obtain ⟨counted, e, h⟩ := Sequence.exists_of_bind_eq_ok h
  have grouping := isGrouping_groupByMask rules
  have perm := (Sequence.sortBy_perm (fun a b => decide (b.1 ≤ a.1)) counted).map (·.2)
  rw [map_snd_counted e] at perm
  split at h
  case h_1 count mask' rule' others groups sorted =>
    cases Except.ok.inj h
    rw [sorted] at perm
    constructor
    · obtain ⟨first, more, members, same⟩ :=
        grouping.first (mask, rule :: others) (perm.mem_iff.mp (by simp))
      exact (List.cons.inj members).1 ▸ same
    · have all := (perm.flatMap_right (·.2)).trans grouping.perm
      simpa [List.flatMap_map] using all
  case h_2 => cases Except.ok.inj h

/-! ## Entries -/

/-- The values of an index entry stand inside its fact, or are it. -/
theorem eq_or_mem_inside_of_isEntry {c m value : Concept} {values : List Concept}
    (h : IsEntry c m values) (hv : value ∈ values) : value = c ∨ value ∈ c.inside := by
  obtain ⟨i, hi, rfl⟩ := List.mem_iff_getElem.mp hv
  have bound : (Bindings.numbered 0 values)[numberedName i]? = some values[i] := by
    simpa [hi] using Bindings.getElem?_numbered 0 values i
  have used : numberedName i ∈ m.vars :=
    h.vars.mem_iff.mpr (Bindings.mem_namesFrom_iff.mpr ⟨i, hi, by rw [Nat.zero_add]⟩)
  have := h.clean.mem_inside_instantiate used bound
  rwa [h.instantiates] at this

/-- The keys of clean concepts read back as these concepts. -/
theorem mapM_ofKey_eq {values : List Concept} (clean : ∀ value ∈ values, value.Clean) :
    (values.map Concept.key).mapM (fun key => liftSource (Source.ofKey key)) = .ok values := by
  rw [List.mapM_map]
  refine (Sequence.mapM_eq_ok fun value hv => ?_).trans (by rw [List.map_id])
  rw [Function.comp_apply, (clean value hv).ofKey_key]
  rfl

/-- The index entries of a mask are those of the facts that it fits, each listed once, in the order
of their keys. -/
theorem Indexed.exists_maskEntries_eq (h : Indexed t facts) {m : Concept} (hm : m.Clean) :
    ∃ entries, maskEntries t m = .ok entries ∧
      (entries.map (Key.maskMatch m)).Pairwise (· < ·) ∧
      ∀ values, values ∈ entries ↔ ∃ c ∈ facts, m ∈ c.masks ∧ IsEntry c m values := by
  have read : ∀ key ∈ t.listKeys { stem := Key.maskMatches m }, ∃ values,
      valuesOf key = .ok values ∧ key = Key.maskMatch m values ∧
        ∃ c ∈ facts, m ∈ c.masks ∧ IsEntry c m values := by
    intro key hk
    obtain ⟨hk, under⟩ := Table.mem_listKeys_stem.mp hk
    have stored := h.mem_table_iff.mp hk
    obtain ⟨c, hc, n, hn, values, hv, same, rfl⟩ := exists_of_maskMatches_prefix stored under
    have storable := h.storable c hc
    have entry := storable.isEntry_of_maskValues? hn hv
    obtain rfl : n = m := (entry.clean.key_inj hm).mp same
    have fits : ∀ value ∈ values, Key.FitsMemory value.key := fun value hv => by
      rcases eq_or_mem_inside_of_isEntry entry hv with rfl | inside
      · exact storable.fits
      · exact (storable.of_mem_inside inside).fits
    refine ⟨values, ?_, rfl, c, hc, hn, entry⟩
    rw [valuesOf, Key.readMaskMatch_maskMatch fits]
    exact mapM_ofKey_eq entry.cleanValues
  obtain ⟨entries, e, related⟩ := Sequence.exists_mapM_eq_ok read
  have keys : t.listKeys { stem := Key.maskMatches m } = entries.map (Key.maskMatch m) := by
    rw [← List.forall₂_eq_eq_eq, List.forall₂_map_right_iff]
    exact related.imp fun _ _ h => h.1
  refine ⟨entries, e, ?_, fun values => ⟨fun hv => ?_, ?_⟩⟩
  · rw [← keys]
    exact t.listKeys_stem_pairwise _
  · obtain ⟨key, -, -, origin⟩ := Sequence.exists_of_mem_right related hv
    exact origin
  · rintro ⟨c, hc, masked, entry⟩
    have mark : Key.maskMatch m values ∈ marks c :=
      mem_marks_iff.mpr (.inr (.inl ⟨m, masked, values, entry.read, rfl⟩))
    have listed : Key.maskMatch m values ∈ t.listKeys { stem := Key.maskMatches m } := by
      refine Table.mem_listKeys_stem.mpr ⟨?_, Key.maskMatches_prefix_iff.mpr rfl⟩
      rw [Std.ExtTreeMap.mem_iff_isSome_getElem?, h.lookup, described_of_mem_marks hc mark]
      rfl
    obtain ⟨found, hf, same, c', -, -, entry'⟩ := Sequence.exists_of_mem_left related listed
    obtain rfl : values = found :=
      Concept.eq_of_map_key_eq entry.cleanValues entry'.cleanValues (Key.maskMatch_inj same).2
    exact hf

/-! ## Candidates -/

/-- One step of `bindEntry`: the value that an entry has at a place. -/
def bindPlace (places b : Bindings) (entry : Nat × Concept) : Option Bindings := do
  let place ← places[(Concept.numberedVariable entry.1).key]?
  if place.isVariable then b.bind? place.key entry.2
  else if place.same entry.2 then some b
  else none

theorem bindEntry_eq (places : Bindings) (values : List Concept) :
    bindEntry places values =
      (values.mapIdx fun i value => (i, value)).foldlM (bindPlace places) ∅ :=
  rfl

/-- Whatever an entry binds are values of the entry. -/
theorem allValues_of_bindEntry {P : Concept → Prop} {places cand : Bindings}
    {values : List Concept} (hv : ∀ value ∈ values, P value)
    (h : bindEntry places values = some cand) : cand.AllValues P := by
  have step : ∀ (entries : List (Nat × Concept)) (b : Bindings), b.AllValues P →
      (∀ entry ∈ entries, P entry.2) →
        entries.foldlM (bindPlace places) b = some cand → cand.AllValues P := by
    intro entries
    induction entries with
    | nil => exact fun b hb _ e => Option.some.inj e ▸ hb
    | cons entry entries ih =>
      intro b hb he e
      rw [List.foldlM_cons] at e
      obtain ⟨next, placed, e⟩ := Option.bind_eq_some_iff.mp e
      refine ih next ?_ (fun entry hm => he entry (by simp [hm])) e
      obtain ⟨place, -, placed⟩ := Option.bind_eq_some_iff.mp placed
      split at placed
      · exact hb.bind? (he entry (by simp)) placed
      · split at placed
        · exact Option.some.inj placed ▸ hb
        · cases placed
  refine step _ ∅ (Bindings.allValues_empty P) (fun entry he => ?_) h
  obtain ⟨i, hi, rfl⟩ := List.mem_mapIdx.mp he
  exact hv _ (List.getElem_mem hi)

/-- At a place of a variable the step binds the variable. -/
theorem bindPlace_eq_bind? {places : Bindings} {i : Nat} {name : String}
    (isVariable : Concept.startsWith '$' name = true)
    (place : places[numberedName i]? = some (.atom name)) (b : Bindings) (value : Concept) :
    bindPlace places b (i, value) = b.bind? name value := by
  have place : places[(Concept.numberedVariable i).key]? = some (.atom name) := place
  have isVariable : (Concept.atom name).isVariable = true := isVariable
  rw [bindPlace, place]
  exact if_pos isVariable

/-- The places from a number on, if they are places of variables, bind these variables. -/
theorem foldlM_bindPlace_eq_bindAll {places : Bindings} {names : List String}
    {values : List Concept} (first : Nat) (b : Bindings) (length : values.length = names.length)
    (placed : ∀ i name, names[i]? = some name → Concept.startsWith '$' name = true ∧
      places[numberedName (first + i)]? = some (.atom name)) :
    (values.mapIdx fun i value => (first + i, value)).foldlM (bindPlace places) b =
      b.bindAll (names.zip values) := by
  induction names generalizing values first b with
  | nil =>
    obtain rfl : values = [] := by simpa using length
    rfl
  | cons name names ih =>
    cases values with
    | nil => simp at length
    | cons value values =>
      obtain ⟨isVariable, place⟩ := placed 0 name rfl
      rw [List.mapIdx_cons, List.foldlM_cons, List.zip_cons_cons, Bindings.bindAll_cons,
        bindPlace_eq_bind? isVariable place]
      refine congrArg (Option.bind _) (funext fun b' => ?_)
      have shifted : (fun i value => (first + (i + 1), value) : Nat → Concept → Nat × Concept) =
          fun i value => (first + 1 + i, value) := by
        funext i value
        rw [Nat.add_right_comm, Nat.add_assoc]
      rw [shifted]
      refine ih (first + 1) b' (by simpa using length) fun i other hi => ?_
      rw [Nat.add_right_comm, Nat.add_assoc]
      exact placed (i + 1) other hi

/-- An entry binds the variables at the places to its values, one after the other. -/
theorem bindEntry_eq_bindAll {places : Bindings} {names : List String} {values : List Concept}
    (placed : places.IsRenaming names) (length : values.length = names.length) :
    bindEntry places values = Bindings.bindAll ∅ (names.zip values) := by
  have := foldlM_bindPlace_eq_bindAll 0 ∅ length fun i name hi => by
    rw [Nat.zero_add]
    exact placed i name hi
  simpa only [Nat.zero_add, bindEntry_eq] using this

/-- The bindings that an entry gives bind the variables at the places just to its values. -/
theorem extends_of_isRenaming {places cand : Bindings} {names : List String}
    {values : List Concept} (placed : places.IsRenaming names)
    (length : values.length = names.length) (clean : ∀ value ∈ values, value.Clean)
    (h : bindEntry places values = some cand) :
    Extends names ∅ cand ∧
      ∀ (i : Nat) (name : String), names[i]? = some name → cand[name]? = values[i]? := by
  rw [bindEntry_eq_bindAll placed length] at h
  obtain ⟨extended, pairs⟩ := Bindings.extends_of_bindAll
    (fun pair hp => clean pair.2 (List.of_mem_zip hp).2) (Bindings.allValues_empty _) h
  rw [List.map_fst_zip (Nat.le_of_eq length.symm)] at extended
  refine ⟨extended, fun i name hi => ?_⟩
  obtain ⟨inNames, rfl⟩ := List.getElem?_eq_some_iff.mp hi
  have inValues : i < values.length := length ▸ inNames
  rw [List.getElem?_eq_getElem inValues]
  exact pairs (names[i], values[i])
    (List.mem_iff_getElem.mpr ⟨i, by simpa using ⟨inNames, inValues⟩, by simp⟩)

variable {rule c : Concept} {values : List Concept}

theorem length_eq_of_isEntry_mask (hr : rule.Clean) (entry : IsEntry c rule.mask values) :
    values.length = rule.vars.length := by
  have numbers := hr.vars_mask_perm.length_eq
  have same := entry.vars.length_eq
  simp only [Shape.namesFrom, List.length_map, List.length_range'] at numbers same
  omega

/-- The bindings that an entry gives to the variables of a rule make it the fact of the entry, and
bind nothing but values of the entry. -/
theorem becomes_of_bindEntry {places cand : Bindings} (hr : rule.Clean)
    (found : rule.match? rule.mask = some places) (entry : IsEntry c rule.mask values)
    (h : bindEntry places values = some cand) :
    Extends rule.vars ∅ cand ∧ cand.AllValues (· ∈ values) ∧ rule.instantiate cand = c := by
  obtain ⟨names, perm, placed⟩ := hr.exists_isRenaming found
  have length : values.length = names.length :=
    (length_eq_of_isEntry_mask hr entry).trans perm.length_eq.symm
  obtain ⟨extended, values_eq⟩ := extends_of_isRenaming placed length entry.cleanValues h
  have fits := hr.clean_mask.fits_of_match? hr found
  refine ⟨extended.perm perm, fun name value e => ?_, ?_⟩
  · have among : name ∈ names := extended.ne_none_iff.mp (by rw [e]; simp)
    obtain ⟨i, hi⟩ := List.mem_iff_getElem?.mp among
    exact List.mem_of_getElem? ((values_eq i name hi).symm.trans e)
  -- The rule is its mask with the variables put in, and the fact is the mask with the values.
  · rw [← fits.instantiates, ← entry.instantiates]
    refine hr.clean_mask.instantiate_instantiate fits.clean
      (Bindings.allValues_numbered.mpr entry.cleanValues) fun number hn => ?_
    obtain ⟨i, hi, rfl⟩ := Bindings.mem_namesFrom_iff.mp (entry.vars.mem_iff.mp hn)
    rw [Nat.zero_add] at hn ⊢
    have hi' : i < names.length := length ▸ hi
    obtain ⟨isVariable, place⟩ := placed i names[i] (List.getElem?_eq_getElem hi')
    have value := values_eq i names[i] (List.getElem?_eq_getElem hi')
    rw [List.getElem?_eq_getElem hi] at value
    have number : (Bindings.numbered 0 values)[numberedName i]? = some values[i] := by
      simpa [hi] using Bindings.getElem?_numbered 0 values i
    have isNumber := (List.mem_filter.mp hn).2
    rw [Concept.instantiate_atom_of_bound isNumber place,
      Concept.instantiate_atom_of_bound isVariable value,
      Concept.instantiate_atom_of_bound isNumber number]

/-- For rules without sets, the values are what the bindings make of the variables in their order,
and if the fact of the entry is plain, so are they. -/
theorem extends_of_bindEntry {cand : Bindings} (hr : IsRule rule) (fact : IsPlainFact c)
    (entry : IsEntry c rule.mask values) (h : bindEntry rule.placesOf values = some cand) :
    Extends rule.vars ∅ cand ∧ cand.AllValues IsPlainFact ∧ rule.instantiate cand = c ∧
      values = rule.placeValues cand := by
  obtain ⟨extended, among, becomes⟩ :=
    becomes_of_bindEntry hr.clean (hr.clean.match?_mask hr.noSet) entry h
  have length := length_eq_of_isEntry_mask hr.clean entry
  obtain ⟨-, values_eq⟩ :=
    extends_of_isRenaming rule.isRenaming_placesOf length entry.cleanValues h
  refine ⟨extended, fun name value e => ?_, becomes, ?_⟩
  · rcases eq_or_mem_inside_of_isEntry entry (among e) with rfl | inside
    · exact fact
    · exact fact.of_mem_inside inside
  · refine List.ext_getElem (by simpa using length) fun i hi _ => ?_
    have hi' : i < rule.vars.length := length ▸ hi
    have value := values_eq i rule.vars[i] (List.getElem?_eq_getElem hi')
    rw [List.getElem?_eq_getElem hi] at value
    simp only [Concept.placeValues, List.getElem_map]
    rw [Concept.instantiate_atom_of_bound (List.mem_filter.mp (List.getElem_mem hi')).2 value]

section

variable {b : Bindings} (bound : ∀ name ∈ rule.vars, b[name]? ≠ none)

include bound in
/-- A fact that a rule becomes has an entry under its mask. -/
theorem isEntry_placeValues (hr : IsRule rule) (opened : ¬ rule.IsGround)
    (plain : b.AllValues IsPlainFact) (storable : Storable (rule.instantiate b)) :
    rule.mask ∈ (rule.instantiate b).masks ∧
      IsEntry (rule.instantiate b) rule.mask (rule.placeValues b) := by
  obtain ⟨compound, word⟩ := hr.form.resolve_left opened
  obtain ⟨ps, rfl⟩ : ∃ ps, rule = .compound ps := by
    cases rule with
    | atom => simp [Concept.isCompound, Concept.isAtom] at compound
    | compound ps => exact ⟨ps, rfl⟩
  obtain ⟨masked, matched⟩ := hr.clean.mask_mem_masks opened hr.noSet word
    (fun _ _ e => (plain e).clean) (fun _ _ e => (plain e).noSet) bound
  obtain ⟨values, entry⟩ := storable.exists_isEntry masked
  have same := Option.some.inj (matched.symm.trans entry.matched)
  have length := length_eq_of_isEntry_mask hr.clean entry
  have : values = (Concept.compound ps).placeValues b := by
    refine List.ext_getElem? fun i => ?_
    rw [← Bindings.getElem?_numbered 0 values i, ← same, Concept.numbersOf,
      Bindings.getElem?_numbered]
  exact ⟨masked, this ▸ entry⟩

include bound in
/-- The entry of a fact that a rule becomes binds nothing else than was put into the rule. -/
theorem exists_bindEntry :
    ∃ cand, bindEntry rule.placesOf (rule.placeValues b) = some cand ∧ cand.IsPartOf b := by
  rw [bindEntry_eq_bindAll rule.isRenaming_placesOf (by simp)]
  refine Bindings.exists_bindAll (Bindings.isPartOf_empty b) fun pair hp => ?_
  rw [Concept.placeValues, List.zip_map_right] at hp
  obtain ⟨⟨name, other⟩, hn, rfl⟩ := List.mem_map.mp hp
  obtain rfl : name = other := by
    obtain ⟨i, hi, e⟩ := List.mem_iff_getElem.mp hn
    simp only [List.getElem_zip] at e
    exact (Prod.mk.inj e).1.symm.trans (Prod.mk.inj e).2
  have hn : name ∈ rule.vars := (List.of_mem_zip hn).1
  obtain ⟨value, e⟩ := Option.ne_none_iff_exists'.mp (bound name hn)
  simp [e, Concept.instantiate_atom_of_bound (List.mem_filter.mp hn).2 e]

end

end ConceptSpace.FactBase
