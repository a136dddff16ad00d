import ConceptSpace.Proofs.Facts.Join

/-!
# Queries followed on facts

What a query for clean rules comes to depends on a table only through the stored facts. So it can be
followed on a list of the facts, without the keys of the table: rules without variables are members
of the list (`Indexed.existing_lt_iff`), masks are counted by the facts that they are masks of
(`Indexed.pivot_eq`), and the index entries of a mask are read off these facts
(`Indexed.maskEntries_eq`). A query that is followed like this gives up at rules that are not clean,
and where it comes to more pivots than a limit; if it does not give up, the query comes to the same
(`Indexed.attempts_answersOver`).
-/

namespace ConceptSpace

/-! ## Attempts -/

/-- The outcome of an attempt that gives up. -/
def gaveUp : Error := .endlessRounds

/-- What an attempt at a computation comes to: it gives up, or it is what the computation comes
to. -/
def Attempts {α : Type} (x y : Except Error α) : Prop :=
  x = .error gaveUp ∨ y = x

namespace Attempts

variable {α β : Type}

theorem refl (x : Except Error α) : Attempts x x :=
  .inr rfl

theorem eq_ok {x y : Except Error α} {a : α} (h : Attempts x y) (ok : x = .ok a) : y = .ok a := by
  obtain rfl | same := h
  · cases ok
  · exact same.trans ok

theorem bind {x y : Except Error α} {f g : α → Except Error β} (h : Attempts x y)
    (next : ∀ a, Attempts (f a) (g a)) : Attempts (x >>= f) (y >>= g) := by
  obtain rfl | rfl := h
  · exact .inl rfl
  · cases y with
    | error e => exact .refl (.error e)
    | ok a => exact next a

theorem mapM {f g : α → Except Error β} (h : ∀ a, Attempts (f a) (g a)) (l : List α) :
    Attempts (l.mapM f) (l.mapM g) := by
  induction l with
  | nil => exact .refl _
  | cons a l ih =>
    rw [List.mapM_cons, List.mapM_cons]
    exact (h a).bind fun b => ih.bind fun bs => .refl _

end Attempts

namespace FactBase

open Storage
open ConceptSpace.Concept (IsEntry)

variable {base : FactBase} {t : Table} {facts : List Concept} {partials : Bool}

/-! ## What is looked up -/

/-- The facts that have a mask, each once. -/
def factsUnder (facts : List Concept) (m : Concept) : List Concept :=
  -- What has the mask can be read by it, which takes less than listing all masks.
  (facts.filter fun c => (c.maskValues? m).isSome && decide (m ∈ c.masks)).dedup

/-- The index entries of the facts that have a mask, in the order of their keys. -/
def entriesOver (facts : List Concept) (m : Concept) : List (List Concept) :=
  Sequence.sortBy (fun values others => decide (Key.maskMatch m values ≤ Key.maskMatch m others))
    ((factsUnder facts m).filterMap (·.maskValues? m))

/-- The pivot, as by `pivot`, if the facts are counted that have a mask. -/
def pivotOver (facts rules : List Concept) : Option (Concept × Concept × List Concept) :=
  match Sequence.sortBy (fun a b => decide (b.1 ≤ a.1)) ((groupByMask rules).map fun group =>
      (UInt64.ofNat (factsUnder facts group.1).length, group)) with
  | (_, mask, rule :: others) :: groups => some (mask, rule, others ++ groups.flatMap (·.2.2))
  | _ => none

theorem Indexed.mem_factsUnder_iff (h : Indexed t facts.toFinset) {m c : Concept} :
    c ∈ factsUnder facts m ↔ c ∈ facts ∧ m ∈ c.masks := by
  rw [factsUnder, List.mem_dedup, List.mem_filter, Bool.and_eq_true, decide_eq_true_eq]
  refine and_congr_right fun hc => and_iff_right_of_imp fun masked => ?_
  obtain ⟨values, entry⟩ := (h.storable c (List.mem_toFinset.mpr hc)).exists_isEntry masked
  exact Option.isSome_iff_exists.mpr ⟨values, entry.read⟩

theorem Indexed.length_factsUnder (h : Indexed t facts.toFinset) {m : Concept} (hm : m.Clean) :
    (factsUnder facts m).length = total facts.toFinset (Key.maskCount m) := by
  have once : (factsUnder facts m).Nodup := List.nodup_dedup _
  rw [h.total_maskCount hm, ← List.toFinset_card_of_nodup once]
  congr 1
  ext c
  rw [List.mem_toFinset, h.mem_factsUnder_iff, Finset.mem_filter, List.mem_toFinset]

theorem Indexed.pivot_eq (h : Indexed t facts.toFinset) {rules : List Concept}
    (clean : ∀ r ∈ rules, r.Clean) : pivot t rules = .ok (pivotOver facts rules) := by
  have grouping := isGrouping_groupByMask rules
  have counted : (groupByMask rules).map (withCount facts.toFinset) =
      (groupByMask rules).map fun group =>
        (UInt64.ofNat (factsUnder facts group.1).length, group) := by
    refine List.map_congr_left fun group hg => ?_
    obtain ⟨rule, others, members, mask⟩ := grouping.first group hg
    have hr : rule ∈ rules := grouping.perm.mem_iff.mp
      (List.mem_flatMap.mpr ⟨group, hg, members ▸ List.mem_cons_self ..⟩)
    rw [withCount, h.length_factsUnder (mask ▸ (clean rule hr).clean_mask)]
  rw [pivot, h.mapM_maskCount_eq, Sequence.ok_bind, counted, pivotOver]
  generalize Sequence.sortBy _ _ = sorted
  rcases sorted with _ | ⟨⟨count, mask, _ | ⟨rule, others⟩⟩, groups⟩ <;> rfl

theorem Indexed.mem_entriesOver_iff (h : Indexed t facts.toFinset) {m : Concept}
    {values : List Concept} :
    values ∈ entriesOver facts m ↔ ∃ c ∈ facts, m ∈ c.masks ∧ IsEntry c m values := by
  rw [entriesOver, Sequence.mem_sortBy, List.mem_filterMap]
  refine exists_congr fun c => ?_
  rw [h.mem_factsUnder_iff, and_assoc]
  refine and_congr_right fun hc => and_congr_right fun masked => ⟨fun read => ?_, fun entry => ?_⟩
  · exact (h.storable c (List.mem_toFinset.mpr hc)).isEntry_of_maskValues? masked read
  · exact entry.read

/-- Facts that have a mask are told apart by their values. -/
theorem Indexed.nodup_entriesOver (h : Indexed t facts.toFinset) (m : Concept) :
    (entriesOver facts m).Nodup := by
  have once : (factsUnder facts m).Nodup := List.nodup_dedup _
  rw [entriesOver, (Sequence.sortBy_perm _ _).nodup_iff, List.Nodup, List.pairwise_filterMap]
  refine once.imp_of_mem fun hc hd differ values read others read' same => differ ?_
  subst same
  have entry {c : Concept} (hc : c ∈ factsUnder facts m) (read : c.maskValues? m = some values) :
      IsEntry c m values := by
    obtain ⟨hc, masked⟩ := h.mem_factsUnder_iff.mp hc
    exact (h.storable c (List.mem_toFinset.mpr hc)).isEntry_of_maskValues? masked read
  exact (entry hc read).instantiates.symm.trans (entry hd read').instantiates

theorem Indexed.maskEntries_eq (h : Indexed t facts.toFinset) {m : Concept} (hm : m.Clean) :
    maskEntries t m = .ok (entriesOver facts m) := by
  obtain ⟨entries, listed, ordered, mem_entries⟩ := h.exists_maskEntries_eq hm
  have nodup : (entries.map (Key.maskMatch m)).Nodup := ordered.imp String.ne_of_lt
  have perm : entries.Perm (entriesOver facts m) := by
    refine (List.perm_ext_iff_of_nodup (.of_map _ nodup) (h.nodup_entriesOver m)).mpr ?_
    intro values
    simp only [mem_entries, h.mem_entriesOver_iff, List.mem_toFinset]
  have sorted : (entriesOver facts m).Pairwise
      fun values others => Key.maskMatch m values ≤ Key.maskMatch m others := by
    refine (Sequence.pairwise_sortBy (fun values others => ?_) (fun a b c hab hbc => ?_) _).imp
      of_decide_eq_true
    · simpa using String.le_total _ _
    · simp only [decide_eq_true_eq] at *
      exact String.le_trans hab hbc
  rw [listed]
  refine congrArg _ (List.Perm.eq_of_pairwise (fun a b ha hb le ge => ?_)
    ((List.pairwise_map.mp ordered).imp String.lt_asymm) sorted perm)
  exact List.inj_on_of_nodup_map nodup ha (perm.mem_iff.mpr hb) (String.le_antisymm le ge)

/-! ## Following a query -/

/-- The answers to rules, as by `answersWithin`, told from the stored facts. -/
def answersOver (facts : List Concept) (partials : Bool) :
    Nat → List Concept → Except Error (List Bindings)
  | 0, _ => .error gaveUp
  | depth + 1, rules => do
    if ¬ ∀ r ∈ rules, r.Clean then .error gaveUp
    let (patterns, ground) := (Concept.distinct rules).partition (·.isPattern)
    if ¬ ∀ r ∈ ground, r ∈ facts then return []
    match pivotOver facts patterns with
    | none => return [∅]
    | some (mask, rule, rest) =>
      match rule.match? mask with
      | none => return []
      | some places =>
        let answers ← (entriesOver facts mask).mapM fun values =>
          match bindEntry places values with
          | none => return []
          | some candidate => do
            if !partials && !candidate.isGround then return []
            completedBy (answersOver facts partials depth) candidate rest
        return answers.flatten.filter fun answer => partials || answer.isGround

/-- A query that is followed over the stored facts comes to the same as over the table. -/
theorem Indexed.attempts_answersOver (h : Indexed t facts.toFinset) (base : FactBase)
    (partials : Bool) (depth : Nat) (rules : List Concept) :
    Attempts (answersOver facts partials depth rules)
      (base.answersWithin t partials depth rules) := by
  induction depth generalizing rules with
  | zero => exact .inl rfl
  | succ depth ih =>
    rw [answersOver, answersWithin, List.partition_eq_filter_filter]
    simp only
    by_cases clean : ∀ r ∈ rules, r.Clean
    swap
    · rw [if_pos clean]
      exact .inl rfl
    have cleanRules := Concept.clean_of_mem_distinct clean
    have cleanPart : ∀ (p : Concept → Bool), ∀ r ∈ (Concept.distinct rules).filter p, r.Clean :=
      fun p r hr => cleanRules r (List.mem_filter.mp hr).1
    rw [if_neg (not_not_intro clean)]
    simp only [h.existing_lt_iff base (cleanPart _), List.mem_toFinset, h.pivot_eq (cleanPart _),
      Sequence.ok_bind]
    split
    · exact .refl _
    cases chosen : pivotOver facts ((Concept.distinct rules).filter (·.isPattern)) with
    | none => exact .refl _
    | some found =>
      obtain ⟨mask, rule, rest⟩ := found
      obtain ⟨rfl, perm⟩ := perm_of_pivot ((h.pivot_eq (cleanPart _)).trans (congrArg _ chosen))
      have pivot : rule.Clean := cleanPart _ rule (perm.mem_iff.mp (List.mem_cons_self ..))
      simp only
      cases rule.match? rule.mask with
      | none => exact .refl _
      | some places =>
        simp only [h.maskEntries_eq pivot.clean_mask, Sequence.ok_bind]
        refine .bind (.mapM (fun values => ?_) _) fun answers => .refl _
        cases bindEntry places values with
        | none => exact .refl _
        | some candidate =>
          simp only
          split
          · exact .refl _
          rw [completedBy]
          split
          · exact .refl _
          · exact .bind (.refl _) fun remaining => (ih remaining).bind fun _ => .refl _

/-- A query succeeds if a check holds of the answers that are found by following it, and the check
holds of its answers. -/
theorem Indexed.exists_answers_eq_of_any (h : Indexed t facts.toFinset) (base : FactBase)
    {depth : Nat} {rules : List Concept} {check : List Bindings → Bool}
    (found : (answersOver facts partials depth rules).toOption.any check = true) :
    ∃ found, base.answers t rules partials = .ok found ∧ check found = true := by
  cases e : answersOver facts partials depth rules with
  | error fault =>
    rw [e] at found
    cases found
  | ok answers =>
    rw [e] at found
    exact ⟨answers, answers_eq_ok ((h.attempts_answersOver base partials depth rules).eq_ok e),
      found⟩

end FactBase

end ConceptSpace
