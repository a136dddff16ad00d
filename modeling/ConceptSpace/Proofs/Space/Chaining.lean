import ConceptSpace.Proofs.Facts.Join
import ConceptSpace.Proofs.Sequence.Insertions
import ConceptSpace.Proofs.Trigger.Rounds
import ConceptSpace.Space.Basic

/-!
# Queries in two steps

A query may be asked at once, or its first rules may be asked first and the others after each of the
answers. Over plain facts the two give the same answers (`answers_append`).
-/

namespace ConceptSpace

open ConceptSpace.Concept (IsPlainFact IsRule)
open FactBase (Solves)

/-! ## Bindings that decide -/

theorem Bindings.getElem?_override (b winner : Bindings) (name : String) :
    (b.override winner)[name]? = winner[name]?.or b[name]? := by
  have mem_iff : ∀ value, (name, value) ∈ winner.toList ↔ winner[name]? = some value := fun value =>
    Std.ExtTreeMap.mem_toList_iff_getElem?_eq_some
  cases e : winner[name]? with
  | none =>
    refine Sequence.getElem?_foldl_insert_of_not_mem fun hm => ?_
    obtain ⟨⟨_, value⟩, hp, rfl⟩ := List.mem_map.mp hm
    simp [(mem_iff value).mp hp] at e
  | some value =>
    refine Sequence.getElem?_foldl_insert_of_mem ((mem_iff value).mpr e) fun v hv => ?_
    exact Option.some.inj (((mem_iff v).mp hv).symm.trans e)

/-! ## Solutions in two steps -/

namespace FactBase

variable {facts : Concept → Prop} {first rest : List Concept} {b : Bindings}

/-- A part of bindings decides on itself. -/
theorem override_without {part : Bindings} (h : part.IsPartOf b) :
    (without b part).override part = b := by
  ext1 name
  rw [Bindings.getElem?_override, getElem?_without]
  cases e : part[name]? with
  | none => simp
  | some value => simp [h e]

/-- A solution of rules has a solution of the first ones as a part. -/
theorem Solves.exists_first (h : Solves facts (first ++ rest) b) :
    ∃ early, Solves facts first early ∧ early.IsPartOf b := by
  obtain ⟨asked, asked_iff⟩ : ∃ asked : String → Bool,
      ∀ name, asked name = true ↔ ∃ r ∈ first, name ∈ r.vars :=
    ⟨fun name => first.any fun r => r.vars.contains name, by simp⟩
  let early : Bindings := b.filter fun name _ => asked name
  have lookup : ∀ name : String, early[name]? = if asked name then b[name]? else none := by
    intro name
    rw [Std.ExtTreeMap.getElem?_filter']
    cases b[name]? <;> cases asked name <;> rfl
  refine ⟨early, ⟨fun name => ?_, fun r hr => ?_⟩, fun name value e => ?_⟩
  · rw [← asked_iff, lookup]
    split
    case isTrue own =>
      obtain ⟨r, hr, hn⟩ := (asked_iff name).mp own
      exact iff_of_true ((h.binds name).mpr ⟨r, List.mem_append_left _ hr, hn⟩) own
    case isFalse other => simpa using other
  · have same : r.instantiate early = r.instantiate b :=
      Concept.instantiate_congr fun name hn => by
        rw [lookup, if_pos ((asked_iff name).mpr ⟨r, hr, hn⟩)]
    exact same ▸ h.holds r (List.mem_append_left _ hr)
  · rw [lookup] at e
    split at e
    · exact e
    · simp at e

/-- The solutions of rules are those of the first ones, completed by those of the others after the
first have been put into them. -/
theorem solves_append_iff (kinds : ∀ c, facts c → IsPlainFact c)
    (isRule : ∀ r ∈ first ++ rest, IsRule r) :
    Solves facts (first ++ rest) b ↔ ∃ early later, Solves facts first early ∧
      Solves facts (rest.map (Concept.instantiate early)) later ∧ later.override early = b := by
  constructor
  · intro h
    obtain ⟨early, solves, part⟩ := h.exists_first
    obtain ⟨clean, shared⟩ := clean_and_shared_of_plain kinds isRule solves
    have cleanAll : b.AllValues Concept.Clean := fun _ _ e =>
      (h.allValues kinds (fun r hr => (isRule r hr).clean) e).clean
    obtain ⟨completed, -⟩ := merge?_without_of_solves solves.binds clean shared cleanAll h part
    exact ⟨early, without b early, solves, completed, override_without part⟩
  · rintro ⟨early, later, solves, completed, rfl⟩
    obtain ⟨all, -, part, h, rfl⟩ := exists_solution_of_rest kinds isRule solves completed
    rwa [override_without part]

end FactBase

/-! ## Rules as texts -/

namespace Source

/-- The keys of clean concepts, read as lines, denote the concepts. The word `&` has to be missing,
since it would stand for other parts. -/
theorem conceptsOf_map_key {cs : List Concept} (free : ∀ c ∈ cs, c.IsSelfFree) :
    conceptsOf (cs.map Concept.key) = .ok (Concept.distinct cs) := by
  by_cases nonempty : cs = []
  · subst nonempty
    exact denote_empty _
  · have spells := spellsBranches_intercalate "\n" '\n' rfl rfl nonempty fun c hc =>
      ⟨(free c hc).clean.spells_key, Concept.toBranch_ne_nil (free c hc).clean⟩
    choose! parts stated made using fun c hc => (free c hc).clean.states_toBranch
    have branches : List.Forall₂ States (cs.map Concept.toBranch) (cs.map parts) := by
      rw [List.forall₂_map_left_iff, List.forall₂_map_right_iff, List.forall₂_same]
      exact stated
    have read : ∀ c ∈ cs, Concept.ofParts? (Concept.resolveSelf (parts c)) = some c := by
      intro c hc
      have words := Concept.words_perm_of_ofParts? (made c hc)
      have clear : ∀ p ∈ parts c, Concept.selfReference ∉ p.words := fun p hp hw =>
        (free c hc).noSelf (words.mem_iff.mpr (List.mem_flatMap.mpr ⟨p, hp, hw⟩))
      rw [Concept.resolveSelf_of_forall clear, made c hc]
    rw [conceptsOf, concepts, denote_of_states spells branches, List.map_map, List.filterMap_map]
    exact congrArg (fun l => Except.ok (Concept.distinct l))
      ((List.filterMap_congr read).trans List.filterMap_some)

end Source

/-! ## Queries in two steps -/

namespace FactBase

variable {t : Storage.Table} {facts : Finset Concept} {rules : List Concept} {b : Bindings}

/-- Rules that are given by their keys, with plain facts put in, are answered by the solutions of
their instances. -/
theorem Indexed.exists_asked_eq (h : Indexed t facts) (plain : ∀ c ∈ facts, IsPlainFact c)
    (base : FactBase) (isRule : ∀ r ∈ rules, IsRule r) (hb : b.AllValues IsPlainFact) :
    ∃ asked found, liftSource (Source.interpolate b.values (rules.map Concept.key)) = .ok asked ∧
      base.answers t asked = .ok found ∧
        ∀ d, d ∈ found ↔ Solves (· ∈ facts) (rules.map (Concept.instantiate b)) d := by
  have clean : ∀ r ∈ rules, r.Clean := fun r hr => (isRule r hr).clean
  have instances : ∀ r ∈ (Concept.distinct rules).map (Concept.instantiate b), IsRule r := by
    intro _ hr
    obtain ⟨r, member, rfl⟩ := List.mem_map.mp hr
    exact (isRule r ((Concept.mem_distinct clean).mp member)).instantiate hb
  have mem_asked := fun r => Concept.mem_distinct (c := r) fun r hr => (instances r hr).clean
  have read : Source.interpolate b.values (rules.map Concept.key) = .ok (Concept.distinct
      ((Concept.distinct rules).map (Concept.instantiate b))) := by
    have free : ∀ r ∈ Concept.distinct rules, r.IsSelfFree := fun r hr =>
      (isRule r ((Concept.mem_distinct clean).mp hr)).isSelfFree
    rw [Source.interpolate, Source.conceptsOf_map_key fun r hr => (isRule r hr).isSelfFree]
    exact Source.substitute_eq (fun r hr => (free r hr).clean) (fun _ _ e => (hb e).clean)
      (fun r hr => (free r hr).noSelf) fun _ _ e => (hb e).noSelf
  obtain ⟨found, e, -, solutions⟩ := h.exists_answers_eq_ok plain base
    fun r hr => instances r ((mem_asked r).mp hr)
  refine ⟨_, found, by rw [read]; rfl, e, fun d => (solutions d).trans (solves_congr fun r => ?_)⟩
  rw [mem_asked, List.mem_map, List.mem_map]
  simp only [Concept.mem_distinct clean]

end FactBase

namespace Space

open FactBase (Indexed)

variable {s : Space} {w : SpaceState} {facts : Finset Concept} {rules : List Concept}
  {b : Bindings}

theorem exists_answers_eq (h : Indexed w.store.table facts) (plain : ∀ c ∈ facts, IsPlainFact c)
    (isRule : ∀ r ∈ rules, IsRule r) :
    ∃ found, s.answers (rules.map Concept.key) ∅ w = (.ok found, w) ∧
      ∀ d, d ∈ found ↔ Solves (· ∈ facts) rules d := by
  obtain ⟨asked, found, read, answered, solutions⟩ :=
    h.exists_asked_eq plain s.base isRule (Bindings.allValues_empty _)
  have same : rules.map (Concept.instantiate ∅) = rules :=
    (List.map_congr_left fun r hr => (isRule r hr).clean.instantiate_eq_self (by simp)).trans
      (List.map_id rules)
  have values : (∅ : Interpolations).values = (∅ : Bindings).values := by
    funext name
    simp [Interpolations.values, Bindings.values]
  have kept : ∀ d, Bindings.override (Std.ExtTreeMap.ofList (∅ : Interpolations).single) d = d := by
    intro d
    ext1 name
    have none : (∅ : Interpolations).single = [] := by simp [Interpolations.single]
    rw [Bindings.getElem?_override, none]
    simp
  refine ⟨found, Run.ask_of_ok ?_, same ▸ solutions⟩
  rw [values, read, Sequence.ok_bind, answered]
  exact congrArg Except.ok ((List.map_congr_left fun d _ => kept d).trans (List.map_id found))

/-- The answers after an earlier one are the solutions of the rules with the earlier one put in,
completed by it. -/
theorem exists_answersAfter_eq (h : Indexed w.store.table facts)
    (plain : ∀ c ∈ facts, IsPlainFact c) (isRule : ∀ r ∈ rules, IsRule r)
    (hb : b.AllValues IsPlainFact) :
    ∃ found, s.answersAfter b (rules.map Concept.key) w = (.ok found, w) ∧
      ∀ d, d ∈ found ↔ ∃ later, Solves (· ∈ facts) (rules.map (Concept.instantiate b)) later ∧
        later.override b = d := by
  obtain ⟨asked, found, read, answered, solutions⟩ := h.exists_asked_eq plain s.base isRule hb
  refine ⟨found.map (·.override b), Run.ask_of_ok ?_, fun d => ?_⟩
  · rw [read, Sequence.ok_bind, answered]
    rfl
  · simp only [List.mem_map, solutions]

/-- Over plain facts, whatever texts are attached to them, asking rules is asking the first ones and
then, after each of their answers, the others: both succeed, and the answers are the same. -/
theorem answers_append {store : Storage.Store} (reached : FactBase.Reached IsPlainFact store)
    (stored : w.store.table = store.table) {first rest : List Concept}
    (isRule : ∀ r ∈ first ++ rest, IsRule r) :
    ∃ all early : List Bindings, ∃ after : Bindings → List Bindings,
      s.answers ((first ++ rest).map Concept.key) ∅ w = (.ok all, w) ∧
      s.answers (first.map Concept.key) ∅ w = (.ok early, w) ∧
      (∀ b ∈ early, s.answersAfter b (rest.map Concept.key) w = (.ok (after b), w)) ∧
      ∀ b, b ∈ all ↔ ∃ d ∈ early, b ∈ after d := by
  obtain ⟨-, -, facts, indexed, kind⟩ := reached.exists_indexed
  rw [← stored] at indexed
  have plain := kind fun _ hc _ hp => hc.of_mem_parts hp
  have isFirst : ∀ r ∈ first, IsRule r := fun r hr => isRule r (List.mem_append_left _ hr)
  have isRest : ∀ r ∈ rest, IsRule r := fun r hr => isRule r (List.mem_append_right _ hr)
  obtain ⟨all, asked, all_iff⟩ := exists_answers_eq (s := s) indexed plain isRule
  obtain ⟨early, askedFirst, early_iff⟩ := exists_answers_eq (s := s) indexed plain isFirst
  have chained := fun b (hb : b ∈ early) => exists_answersAfter_eq (s := s) indexed plain isRest
    (((early_iff b).mp hb).allValues plain fun r hr => (isFirst r hr).clean)
  choose! after askedAfter after_iff using chained
  refine ⟨all, early, after, asked, askedFirst, askedAfter, fun b => ?_⟩
  rw [all_iff, FactBase.solves_append_iff plain isRule]
  constructor
  · rintro ⟨d, later, solves, completed, rfl⟩
    have hd := (early_iff d).mpr solves
    exact ⟨d, hd, (after_iff d hd _).mpr ⟨later, completed, rfl⟩⟩
  · rintro ⟨d, hd, hb⟩
    obtain ⟨later, completed, same⟩ := (after_iff d hd b).mp hb
    exact ⟨d, later, (early_iff d).mp hd, completed, same⟩

private def knows (one other : String) : Concept :=
  .compound [.atom one, .atom "knows", .atom other]

/-- Two facts that share a word. -/
private def acquaintances : List Concept :=
  [knows "ann" "bob", knows "bob" "carl"]

private def acquainted : SpaceState :=
  ⟨((FactBase.Change.add acquaintances).run ⟨"home", 2⟩ (Storage.Store.create .memory)).2, []⟩

private def household : Space where
  id := "home"
  settings := {}

/-- Who is known by someone that Ann knows. -/
private def followed : Bindings :=
  ((Std.ExtTreeMap.insert ∅ "$x" (.atom "ann")).insert "$y" (.atom "bob")).insert "$z"
    (.atom "carl")

private theorem acquaintances_known :
    ∀ c ∈ acquaintances, FactBase.Storable c ∧ IsPlainFact c := by
  have known : ∀ c ∈ acquaintances, c.Clean ∧ Storage.Key.FitsMemory c.key ∧
      Concept.setMarker ∉ c.words ∧ Concept.selfReference ∉ c.words ∧ c.IsGround := by decide
  intro c hc
  obtain ⟨clean, fits, noSet, noSelf, ground⟩ := known c hc
  exact ⟨⟨clean, fits⟩, ⟨clean, noSet, noSelf⟩, ground⟩

private theorem acquainted_reached : FactBase.Reached IsPlainFact acquainted.store :=
  .add_create .memory ⟨"home", 2⟩ (fun c hc => (acquaintances_known c hc).1)
    (fun c hc => (acquaintances_known c hc).2) (by decide)

private theorem acquainted_indexed : Indexed acquainted.store.table
    (acquaintances ++ acquaintances.flatMap Concept.inside).toFinset :=
  FactBase.indexed_add_create .memory ⟨"home", 2⟩ fun c hc => (acquaintances_known c hc).1

private theorem followed_solves :
    Solves (· ∈ (acquaintances ++ acquaintances.flatMap Concept.inside).toFinset)
      ([knows "$x" "$y"] ++ [knows "$y" "$z"]) followed := by
  refine ⟨fun name => ?_, by decide⟩
  have vars : (knows "$x" "$y").vars = ["$x", "$y"] ∧ (knows "$y" "$z").vars = ["$y", "$z"] := by
    decide
  rcases eq_or_ne name "$z" with rfl | third
  · simp [vars, followed]
  rcases eq_or_ne name "$y" with rfl | second
  · simp [vars, followed]
  rcases eq_or_ne name "$x" with rfl | first
  · simp [vars, followed]
  · simp [vars, followed, first, second, third, first.symm, second.symm, third.symm]

theorem acquainted_answers_append :
    FactBase.Reached IsPlainFact acquainted.store ∧
      (∀ r ∈ [knows "$x" "$y"] ++ [knows "$y" "$z"], IsRule r) ∧
      ∃ all early : List Bindings, ∃ after : Bindings → List Bindings,
        household.answers ["$x knows $y", "$y knows $z"] ∅ acquainted = (.ok all, acquainted) ∧
        household.answers ["$x knows $y"] ∅ acquainted = (.ok early, acquainted) ∧
        (∀ b ∈ early, household.answersAfter b ["$y knows $z"] acquainted =
          (.ok (after b), acquainted)) ∧
        followed ∈ all ∧ ∃ d ∈ early, followed ∈ after d := by
  have isRule : ∀ r ∈ [knows "$x" "$y"] ++ [knows "$y" "$z"], IsRule r := by
    have rules : ∀ r ∈ [knows "$x" "$y", knows "$y" "$z"], r.Clean ∧
        Concept.setMarker ∉ r.words ∧ Concept.selfReference ∉ r.words ∧ r.isCompound = true ∧
          "knows" ∈ r.words := by decide
    intro r hr
    obtain ⟨clean, noSet, noSelf, compound, word⟩ := rules r hr
    exact ⟨⟨clean, noSet, noSelf⟩, .inr ⟨compound, "knows", word, by decide⟩⟩
  have first : [knows "$x" "$y"].map Concept.key = ["$x knows $y"] := by decide
  have rest : [knows "$y" "$z"].map Concept.key = ["$y knows $z"] := by decide
  obtain ⟨all, early, after, asked, askedFirst, chained, same⟩ :=
    answers_append (s := household) (w := acquainted) acquainted_reached rfl isRule
  have plain : ∀ c ∈ (acquaintances ++ acquaintances.flatMap Concept.inside).toFinset,
      IsPlainFact c := by
    intro c hc
    rcases List.mem_append.mp (List.mem_toFinset.mp hc) with hc | hc
    · exact (acquaintances_known c hc).2
    · obtain ⟨d, hd, hc⟩ := List.mem_flatMap.mp hc
      exact (acquaintances_known d hd).2.of_mem_inside hc
  obtain ⟨found, asked', found_iff⟩ :=
    exists_answers_eq (s := household) (w := acquainted) acquainted_indexed plain isRule
  obtain rfl : all = found :=
    Except.ok.inj (Prod.mk.inj (asked.symm.trans asked')).1
  have member := (found_iff followed).mpr followed_solves
  rw [List.map_append, first, rest] at asked
  rw [first] at askedFirst
  rw [rest] at chained
  exact ⟨acquainted_reached, isRule, all, early, after, asked, askedFirst, chained, member,
    (same followed).mp member⟩

end Space

end ConceptSpace
