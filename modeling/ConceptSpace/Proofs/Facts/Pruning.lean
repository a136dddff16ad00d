import ConceptSpace.Proofs.Facts.CleanTables
import ConceptSpace.Proofs.Facts.Following

/-!
# Partial answers

A query that is not asked for partial answers drops a candidate as soon as it binds a variable to a
variable, with all that would have come of it. This is the same as searching for all answers and
leaving out the partial ones at the end (`Reached.answers_eq_filter`): bindings that are completed
keep what they bind (`isGround_merge?`), and a completion that is no partial answer comes of a
completion that is none.
-/

namespace ConceptSpace.FactBase

open Storage

/-! ## Merged bindings -/

/-- Merged bindings bind a variable to a variable if one of the two does. -/
theorem isGround_merge? {b extra all : Bindings} (hb : b.AllValues Concept.Clean)
    (clean : extra.AllValues Concept.Clean) (merged : b.merge? extra = some all) :
    all.isGround = (b.isGround && extra.isGround) := by
  obtain ⟨hba, hea, names⟩ := isPartOf_of_merge? hb clean merged
  rw [Bool.eq_iff_iff, Bool.and_eq_true, isGround_iff, isGround_iff, isGround_iff]
  constructor
  · intro ground
    exact ⟨hba.allValues ground, hea.allValues ground⟩
  · rintro ⟨first, second⟩ name value e
    rcases eq_some_or_of_ne_none_iff hba hea names e with e | e
    · exact first e
    · exact second e

section Completions

variable {b : Bindings} {completions : List Bindings} (hb : b.AllValues Concept.Clean)
  (clean : ∀ extra ∈ completions, extra.AllValues Concept.Clean)

include hb clean in
/-- Partial completions make partial answers, and the others do not. -/
theorem filter_filterMap_merge? (ground : b.isGround = true) :
    (completions.filterMap b.merge?).filter Bindings.isGround =
      (completions.filter Bindings.isGround).filterMap b.merge? := by
  rw [List.filter_filterMap, List.filterMap_filter]
  refine List.filterMap_congr fun extra he => ?_
  cases merged : b.merge? extra with
  | none => simp
  | some all =>
    have same := isGround_merge? hb (clean extra he) merged
    rw [ground, Bool.true_and] at same
    simp [Option.filter, same]

include hb clean in
/-- Bindings of a variable to a variable are completed to partial answers only. -/
theorem filter_filterMap_merge?_eq_nil (isPartial : b.isGround = false) :
    (completions.filterMap b.merge?).filter Bindings.isGround = [] := by
  rw [List.filter_eq_nil_iff]
  intro all hm
  obtain ⟨extra, he, merged⟩ := List.mem_filterMap.mp hm
  rw [isGround_merge? hb (clean extra he) merged, isPartial]
  simp

end Completions

/-! ## Pruned searches -/

/-- A search succeeds with clean bindings, and a second one with those of them that are no partial
answers. -/
def Prunes (all pruned : Except Error (List Bindings)) : Prop :=
  ∃ found, all = .ok found ∧ pruned = .ok (found.filter Bindings.isGround) ∧
    ∀ b ∈ found, b.AllValues Concept.Clean

/-- A search that finds nothing partial is its own pruned search. -/
theorem prunes_self {x : Except Error (List Bindings)} {found : List Bindings} (e : x = .ok found)
    (ground : ∀ b ∈ found, b.isGround = true) (clean : ∀ b ∈ found, b.AllValues Concept.Clean) :
    Prunes x x :=
  ⟨found, e, by rw [List.filter_eq_self.mpr ground]; exact e, clean⟩

section Entry

variable {rest : List Concept} (cleanRest : ∀ r ∈ rest, r.Clean)

section Completion

variable {all pruned : List Concept → Except Error (List Bindings)}
  (answered : ∀ rules : List Concept, (∀ r ∈ rules, r.Clean) → rules.length ≤ rest.length →
    Prunes (all rules) (pruned rules))

include cleanRest answered in
/-- Both searches complete a candidate, and to the same bindings but for the partial answers to the
remaining rules. -/
theorem exists_completedBy_of_prunes {cand : Bindings} (cleanCand : cand.AllValues Concept.Clean) :
    ∃ completions : List Bindings, (∀ extra ∈ completions, extra.AllValues Concept.Clean) ∧
      completedBy all cand rest = .ok (completions.filterMap cand.merge?) ∧
        completedBy pruned cand rest =
          .ok ((completions.filter Bindings.isGround).filterMap cand.merge?) := by
  by_cases last : rest.isEmpty = true
  · -- Nothing is left to bind, as if the remaining rules were answered by no bindings.
    have done : ∀ answer, completedBy answer cand rest = .ok [cand] := fun answer => by
      rw [completedBy, if_pos last]
      rfl
    refine ⟨[∅], by simpa using Bindings.allValues_empty _, done all, done pruned⟩
  · obtain ⟨remaining, e, fewer⟩ := Source.exists_substitute_eq cleanRest cleanCand
    have lifted : liftSource (Source.substitute cand.values rest) = .ok remaining := by
      rw [e]
      rfl
    have cleanRemaining := Source.clean_of_substitute cleanRest
      (fun _ _ hm => cleanCand (Bindings.mem_values_iff.mp hm)) e
    obtain ⟨completions, ha, hp, cleanExtra⟩ := answered remaining cleanRemaining fewer
    refine ⟨completions, cleanExtra, ?_, ?_⟩
    · rw [completedBy, if_neg last, lifted]
      simp only [Sequence.ok_bind, ha]
      rfl
    · rw [completedBy, if_neg last, lifted]
      simp only [Sequence.ok_bind, hp]
      rfl

end Completion

variable {base : FactBase} {t : Table} {depth : Nat}
  (answered : ∀ rules : List Concept, (∀ r ∈ rules, r.Clean) → rules.length ≤ rest.length →
    Prunes (base.answersWithin t true depth rules) (base.answersWithin t false depth rules))

include cleanRest answered in
/-- If the search for the remaining rules is pruned, so is what an index entry leads to. -/
theorem prunes_answersOfEntry (places : Bindings) {values : List Concept}
    (clean : ∀ value ∈ values, value.Clean) :
    Prunes (base.answersOfEntry t true depth places rest values)
      (base.answersOfEntry t false depth places rest values) := by
  rw [answersOfEntry, answersOfEntry]
  cases bound : bindEntry places values with
  | none => exact prunes_self rfl (by simp) (by simp)
  | some cand =>
    have cleanCand : cand.AllValues Concept.Clean := allValues_of_bindEntry clean bound
    obtain ⟨completions, cleanExtra, ha, hp⟩ :=
      exists_completedBy_of_prunes cleanRest answered cleanCand
    refine ⟨completions.filterMap cand.merge?, ha, ?_, fun b hb => ?_⟩
    · by_cases ground : cand.isGround = true
      · rw [filter_filterMap_merge? cleanCand cleanExtra ground]
        simpa [ground] using hp
      · -- All that is skipped with the candidate would be left out at the end.
        have isPartial : cand.isGround = false := by simpa using ground
        rw [filter_filterMap_merge?_eq_nil cleanCand cleanExtra isPartial]
        exact if_pos (by simp [isPartial])
    · obtain ⟨extra, he, merged⟩ := List.mem_filterMap.mp hb
      exact cleanCand.merge? (cleanExtra extra he) merged

end Entry

/-! ## All pivots -/

variable {t : Table} {facts : Finset Concept}

/-- The answers to rules, with or without partial ones, are those that the same index entries lead
to, or there is one and the same outcome without any entry. -/
theorem Indexed.answersWithin_step (h : Indexed t facts) (base : FactBase) (depth : Nat)
    {rules : List Concept} (clean : ∀ r ∈ rules, r.Clean) :
    (∃ found : List Bindings, (∀ b ∈ found, b = ∅) ∧
      ∀ partials, base.answersWithin t partials (depth + 1) rules = .ok found) ∨
    ∃ (rest : List Concept) (places : Bindings) (entries : List (List Concept)),
      rest.length < rules.length ∧ (∀ r ∈ rest, r.Clean) ∧
      (∀ values ∈ entries, ∀ value ∈ values, value.Clean) ∧ ∀ partials answers,
        entries.mapM (base.answersOfEntry t partials depth places rest) = .ok answers →
          base.answersWithin t partials (depth + 1) rules =
            .ok (answers.flatten.filter fun answer => partials || answer.isGround) := by
  have parts := List.partition_eq_filter_filter (p := (·.isPattern)) (l := Concept.distinct rules)
  have cleanPatterns : ∀ r ∈ (Concept.distinct rules).filter (·.isPattern), r.Clean := fun r hr =>
    Concept.clean_of_mem_distinct clean r (List.mem_filter.mp hr).1
  rcases h.answersWithin_split base depth parts cleanPatterns with ⟨-, none⟩ | ⟨-, found⟩
  · exact .inl ⟨[], by simp, none⟩
  rcases found with ⟨-, done⟩ | ⟨rule, rest, places, perm, -, -, found⟩
  · exact .inl ⟨[∅], by simp, done⟩
  · have cleanAll : ∀ r ∈ rule :: rest, r.Clean := fun r hr => cleanPatterns r (perm.mem_iff.mp hr)
    have pivot := cleanAll rule (by simp)
    obtain ⟨entries, listed, -, mem_entries⟩ := h.exists_maskEntries_eq pivot.clean_mask
    have fewer : (rule :: rest).length ≤ rules.length := perm.length_eq.trans_le
      ((List.length_filter_le _ _).trans (Concept.distinct_sublist rules).length_le)
    refine .inr ⟨rest, places, entries, fewer, fun r hr => cleanAll r (List.mem_cons_of_mem _ hr),
      fun values hv => ?_, fun partials answers => found partials entries answers listed⟩
    obtain ⟨c, -, -, entry⟩ := (mem_entries values).mp hv
    exact entry.cleanValues

/-- The search without partial answers is the pruned search for all answers. -/
theorem Indexed.prunes_answersWithin (h : Indexed t facts) (base : FactBase) {depth : Nat}
    {rules : List Concept} (clean : ∀ r ∈ rules, r.Clean) (enough : rules.length < depth) :
    Prunes (base.answersWithin t true depth rules) (base.answersWithin t false depth rules) := by
  -- A pivot uses up a rule, and putting a candidate into the others makes no more of them.
  induction depth generalizing rules with
  | zero => simp at enough
  | succ depth ih =>
    rcases h.answersWithin_step base depth clean with
      ⟨found, empty, e⟩ | ⟨rest, places, entries, fewer, cleanRest, cleanEntries, answers⟩
    · rw [e true, e false]
      refine prunes_self rfl (fun b hb => ?_) fun b hb => ?_
      · rw [empty b hb]
        exact isGround_iff.mpr (Bindings.allValues_empty _)
      · rw [empty b hb]
        exact Bindings.allValues_empty _
    · have each := fun values (hv : values ∈ entries) =>
        prunes_answersOfEntry cleanRest (fun rules clean shorter => ih clean (by omega)) places
          (cleanEntries values hv)
      choose! found ha hp cleanFound using each
      have filtered : entries.map (fun values => (found values).filter Bindings.isGround) =
          (entries.map found).map (List.filter Bindings.isGround) :=
        (List.map_map ..).symm
      refine ⟨(entries.map found).flatten, ?_, ?_, fun b hb => ?_⟩
      · rw [answers true _ (Sequence.mapM_eq_ok ha)]
        exact congrArg _ (List.filter_eq_self.mpr fun _ _ => rfl)
      · rw [answers false _ (Sequence.mapM_eq_ok hp), filtered, ← List.filter_flatten]
        exact congrArg _ (List.filter_eq_self.mpr fun b hb => (List.mem_filter.mp hb).2)
      · obtain ⟨values, hv, hb⟩ := List.mem_flatMap.mp hb
        exact cleanFound values hv b hb

/-! ## Main statement -/

/-- Whatever clean facts were added and removed, with variables, sets and `&` in them or not, clean
rules have answers, and a query without partial answers lists those that bind no variable to a
variable, in the same order and as often. -/
theorem Reached.answers_eq_filter {kind : Concept → Prop} {s : Store} (h : Reached kind s)
    (base : FactBase) {rules : List Concept} (clean : ∀ r ∈ rules, r.Clean) :
    ∃ found, base.answers s.table rules true = .ok found ∧
      base.answers s.table rules = .ok (found.filter Bindings.isGround) := by
  obtain ⟨-, -, facts, indexed, -⟩ := h.exists_indexed
  obtain ⟨found, all, pruned, -⟩ :=
    indexed.prunes_answersWithin base clean (Nat.lt_succ_self rules.length)
  exact ⟨found, answers_eq_ok all, answers_eq_ok pruned⟩

/-- A fact with a variable, as patterns of triggers are stored. -/
private def sight : Concept :=
  .compound [.atom "see", .atom "$person"]

private def sightings : List Concept :=
  [sight, .compound [.atom "see", .atom "ann"]]

private def sightStore : Store :=
  (Change.run ⟨"home", 2⟩ (Store.create .memory) (.add sightings)).2

private def sightRule : Concept :=
  .compound [.atom "see", .atom "$who"]

/-- The variable of a stored pattern is a partial answer, and left out without such answers. -/
theorem sightStore_answers_filtered : Reached (fun _ => True) sightStore ∧ sightRule.Clean ∧
    ∃ found, FactBase.answers ⟨"home", 2⟩ sightStore.table [sightRule] true = .ok found ∧
      found.map (·.isGround) = [false, true] ∧
        FactBase.answers ⟨"home", 2⟩ sightStore.table [sightRule] =
          .ok (found.filter Bindings.isGround) := by
  have storable : ∀ c ∈ sightings, Storable c := by
    simpa [sightings] using ⟨⟨by decide, by decide⟩, ⟨by decide, by decide⟩⟩
  have clean : sightRule.Clean := by decide
  have reached : Reached (fun _ => True) sightStore :=
    .add_create .memory ⟨"home", 2⟩ storable (by simp) (by decide)
  have rules : ∀ r ∈ [sightRule], r.Clean := by simpa using clean
  obtain ⟨found, all, pruned⟩ := reached.answers_eq_filter ⟨"home", 2⟩ rules
  have indexed : Indexed sightStore.table
      (sightings ++ sightings.flatMap Concept.inside).toFinset :=
    indexed_add_create .memory ⟨"home", 2⟩ storable
  have asked : (answersOver (sightings ++ sightings.flatMap Concept.inside) true 1
      [sightRule]).toOption.any (·.map (·.isGround) == [false, true]) = true := by decide
  obtain ⟨_, e, asked⟩ := indexed.exists_answers_eq_of_any ⟨"home", 2⟩ asked
  obtain rfl := Except.ok.inj (all.symm.trans e)
  exact ⟨reached, clean, found, all, eq_of_beq asked, pruned⟩

end ConceptSpace.FactBase
