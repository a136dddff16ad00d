import ConceptSpace.Proofs.Facts.GroundQueries
import ConceptSpace.Proofs.Trigger.Collision
import ConceptSpace.Proofs.Trigger.Rounds

/-!
# Definitions among the facts

The components of a trigger are stored with everything that stands inside them, so that queries run
over its patterns and templates, too. Storing components whose triggers do not fire changes the
answers to other queries only by what is newly stored: an answer stays, and a new answer makes one
of the rules a component or a concept inside one, which was no fact before
(`Reached.answers_after_components`). Such answers exist, since a template can hold a concept
without variables (`freshSpace_answers_change`).

This is said of rules that leave no choice. Where a rule does, the number of facts with its mask
decides whether it is the pivot, so that a query can lose an answer to a template
(`coupleSpace_loses_answer`).
-/

namespace ConceptSpace.FactBase

open Storage
open ConceptSpace.Concept (IsSelfFree)

variable {base : FactBase} {notifier : Notifier} {active : List Trigger} {cs : List Concept}
  {w : SpaceState}

/-! ## A round of components -/

/-- Triggers that do not fire for what is stored cause no firing where no fact is new. -/
theorem firings_of_forall {t : Table} {new : List Trigger}
    (quiet : ∀ trigger ∈ new, base.firingsOfTrigger t trigger = .ok []) :
    base.firings t active [] new = .ok [] := by
  have found : new.mapM (base.firingsOfTrigger t) = .ok (new.map fun _ => []) :=
    Sequence.mapM_eq_ok quiet
  rw [firings, found]
  change Except.ok (Sequence.distinctBy Firing.identity (new.map fun _ => []).flatten) = _
  rw [List.flatten_eq_nil_iff.mpr (by simp)]
  rfl

/-- Components are stored at the end of a round; up to there it changes nothing. -/
theorem exists_openRound_eq (components : ∀ c ∈ cs, c.Clean ∧ Component.ofConcept? c ≠ none)
    (nonempty : cs ≠ []) (noClash : clash? active (Separation.ofConcepts cs).triggers = none)
    (quiet : ∀ trigger ∈ (Separation.ofConcepts cs).triggers,
      base.firingsOfTrigger w.store.table trigger = .ok []) :
    ∃ o, base.openRound active cs w = (.ok (some o), w) ∧ o.components = cs ∧ o.changes = {} := by
  have noFact : (Separation.ofConcepts cs).facts = [] :=
    List.filter_eq_nil_iff.mpr fun c hc => by simpa using (components c hc).2
  have all : (Separation.ofConcepts cs).components = cs :=
    List.filter_eq_self.mpr fun c hc => Option.isSome_iff_ne_none.mpr (components c hc).2
  have defined : (Separation.ofConcepts cs).triggers.isEmpty = false := by
    obtain ⟨c, hc⟩ := List.exists_mem_of_ne_nil cs nonempty
    obtain ⟨d, stated⟩ := Option.ne_none_iff_exists'.mp (components c hc).2
    obtain rfl := (Component.ofConcept?_eq_some_iff (components c hc).1).mp stated
    obtain ⟨t, ht, -⟩ :=
      (Separation.isStated_triggers_iff fun c hc => (components c hc).1).mpr hc
    exact List.isEmpty_eq_false_iff_exists_mem.mpr ⟨t, ht⟩
  have asked : Run.ask (fun t => base.firings t (active ++ (Separation.ofConcepts cs).triggers) []
      (Separation.ofConcepts cs).triggers) w = (.ok [], w) := by
    rw [Run.ask, firings_of_forall quiet]
  rw [openRound]
  simp only [noClash, noFact, all, Run.bind_apply, changeTable_add_nil, defined, List.isEmpty_nil,
    Bool.true_and, Bool.false_eq_true, if_false, asked]
  exact ⟨_, rfl, rfl, rfl⟩

/-- The end of a round without removals stores its components, whatever comes of it. -/
theorem table_closeRound {o : Opening} (removals : o.changes.removals = []) :
    (base.closeRound notifier o w).2.store.table = (base.add o.components w.store.table).2 := by
  have sent : Run.send notifier o.changes.notifications w =
      (.ok (), { w with journal := notifier.deliver w.journal o.changes.notifications }) := rfl
  have kept : ∀ v, base.retract [] v = (.ok 0, v) := fun _ => rfl
  rw [closeRound, removals]
  simp only [Run.bind_apply, sent, kept]
  rw [Run.changeTable]
  dsimp only
  cases (base.add o.components w.store.table).1 <;> rfl

/-- Components are stored if no trigger of theirs is active or fires. -/
theorem table_addRounds (components : ∀ c ∈ cs, c.Clean ∧ Component.ofConcept? c ≠ none)
    (noClash : clash? active (Separation.ofConcepts cs).triggers = none)
    (quiet : ∀ trigger ∈ (Separation.ofConcepts cs).triggers,
      base.firingsOfTrigger w.store.table trigger = .ok []) :
    (base.addRounds notifier active cs w).2.store.table = (base.add cs w.store.table).2 := by
  cases cs with
  | nil =>
    rw [(ComesTo.nil active w).addRounds_eq, add_nil]
  | cons c cs =>
    obtain ⟨o, opened, same, changes⟩ := exists_openRound_eq components (by simp) noClash quiet
    have closed : (base.closeRound notifier o w).2.store.table = _ :=
      table_closeRound (by rw [changes])
    rw [same] at closed
    -- The firings add nothing, so that there is no later round.
    have inner : ComesTo base notifier o.active o.changes.additions w (.ok []) w := by
      rw [changes]
      exact .nil o.active w
    rw [(ComesTo.around opened inner (Prod.eta _).symm).addRounds_eq, ← closed, concludeRound]
    simp only [Run.bind_apply, Run.ask]
    cases base.closeRound notifier o w with
    | mk result v => cases result <;> rfl

/-- An addition of components whose triggers do not fire stores them, or changes nothing. -/
theorem table_addUnder (given : Option (List Trigger))
    (components : ∀ c ∈ cs, c.Clean ∧ Component.ofConcept? c ≠ none)
    (quiet : ∀ trigger ∈ (Separation.ofConcepts cs).triggers,
      base.firingsOfTrigger w.store.table trigger = .ok []) :
    (base.addUnder notifier given cs w).2.store.table = w.store.table ∨
      (base.addUnder notifier given cs w).2.store.table = (base.add cs w.store.table).2 := by
  obtain empty | ⟨e, -, same⟩ | ⟨active, -, same⟩ := addUnder_cases base notifier given cs w
  · rw [empty]
    exact .inl rfl
  · rw [same]
    exact .inl rfl
  · rw [same]
    cases clash : clash? active (Separation.ofConcepts cs).triggers with
    | some trigger =>
      rw [addRounds_of_clash clash]
      exact .inl rfl
    | none => exact .inr (table_addRounds components clash quiet)

/-- Without conditions, a trigger does not fire for what is stored. -/
theorem firingsOfTrigger_of_conditions {trigger : Trigger} (none : trigger.conditions = [])
    (base : FactBase) (t : Table) : base.firingsOfTrigger t trigger = .ok [] := by
  rw [firingsOfTrigger, none]
  rfl

/-- Definitions without conditions are stored if no trigger is active. -/
theorem table_addUnder_of_conditions
    (components : ∀ c ∈ cs, c.Clean ∧ Component.ofConcept? c ≠ none)
    (noCondition : ∀ trigger ∈ (Separation.ofConcepts cs).triggers, trigger.conditions = []) :
    (base.addUnder notifier (some []) cs w).2.store.table = (base.add cs w.store.table).2 :=
  table_addRounds components (by simp [clash?]) fun trigger ht =>
    firingsOfTrigger_of_conditions (noCondition trigger ht) base w.store.table

/-! ## Answers -/

/-- What a rule asks for: its instance, or the word that it is. -/
def asked (b : Bindings) (rule : Concept) : Concept :=
  if rule.isPattern then rule.instantiate b else rule

/-- A larger set of facts has the same regular answers, besides those for which a rule asks for one
of the additional facts. -/
theorem Indexed.exists_answers_of_subset {t t' : Table} {facts more : Finset Concept}
    (h : Indexed t facts) (h' : Indexed t' more) (subset : facts ⊆ more)
    (small : t.size < Text.wordCount) (small' : t'.size < Text.wordCount)
    (selfFree : ∀ c ∈ more, IsSelfFree c) (base : FactBase) {rules : List Concept}
    (free : ∀ r ∈ rules, IsSelfFree r) :
    ∃ found found', base.answers t rules = .ok found ∧ base.answers t' rules = .ok found' ∧
      ∀ b, IsRegular (rules.filter (·.isPattern)) b →
        (b ∈ found ↔ b ∈ found' ∧ ∀ r ∈ rules, asked b r ∈ facts) := by
  obtain ⟨found, e, answers⟩ :=
    h.exists_complete_answers small (fun c hc => selfFree c (subset hc)) base free
  obtain ⟨found', e', answers'⟩ := h'.exists_complete_answers small' selfFree base free
  refine ⟨found, found', e, e', fun b regular => ?_⟩
  rw [answers b regular, answers' b regular]
  constructor
  · rintro ⟨words, solves, rest⟩
    refine ⟨⟨fun r hr hw => subset (words r hr hw), solves.mono fun _ hc => subset hc, rest⟩,
      fun r hr => ?_⟩
    rw [asked]
    split
    case isTrue isPattern => exact solves.holds r (List.mem_filter.mpr ⟨hr, isPattern⟩)
    case isFalse word => exact words r hr (by simpa using word)
  · rintro ⟨⟨-, solves, rest⟩, stored⟩
    refine ⟨fun r hr word => ?_, ⟨solves.binds, fun r hr => ?_⟩, rest⟩
    · simpa [asked, word] using stored r hr
    · obtain ⟨hr, isPattern⟩ := List.mem_filter.mp hr
      simpa [asked, isPattern] using stored r hr

/-- Whatever clean facts without `&` were added and removed: an addition of clean components without
`&`, whose triggers do not fire for what is stored, makes facts of nothing but the components and
what stands inside them. Rules have the regular answers that they had before, and those for which a
rule asks for such a new fact. -/
theorem Reached.answers_after_components (h : Reached IsSelfFree w.store)
    {given : Option (List Trigger)} {result : Except Error (List Round)} {w' : SpaceState}
    (ran : base.addUnder notifier given cs w = (result, w'))
    (storable : ∀ c ∈ cs, Storable c) (selfFree : ∀ c ∈ cs, IsSelfFree c)
    (components : ∀ c ∈ cs, Component.ofConcept? c ≠ none)
    (quiet : ∀ trigger ∈ (Separation.ofConcepts cs).triggers,
      base.firingsOfTrigger w.store.table trigger = .ok [])
    (small : w'.store.table.size < Text.wordCount) {rules : List Concept}
    (free : ∀ r ∈ rules, IsSelfFree r) :
    (∀ c, IsFact w'.store.table c → IsFact w.store.table c ∨ ∃ d ∈ cs, c = d ∨ c ∈ d.inside) ∧
      ∃ found found', base.answers w.store.table rules = .ok found ∧
        base.answers w'.store.table rules = .ok found' ∧
        ∀ b, IsRegular (rules.filter (·.isPattern)) b →
          (b ∈ found ↔ b ∈ found' ∧ ∀ r ∈ rules, IsFact w.store.table (asked b r)) := by
  obtain ⟨small₀, -, facts, indexed, kind⟩ := h.exists_indexed
  have kinds := kind fun _ hc _ hp => hc.of_mem_parts hp
  have clean : ∀ c ∈ cs, c.Clean := fun c hc => (storable c hc).clean
  obtain ⟨more, indexed', subset, origin⟩ : ∃ more, Indexed w'.store.table more ∧ facts ⊆ more ∧
      ∀ c ∈ more, c ∈ facts ∨ ∃ d ∈ cs, c = d ∨ c ∈ d.inside := by
    have table : (base.addUnder notifier given cs w).2.store.table = _ ∨ _ :=
      table_addUnder given (fun c hc => ⟨clean c hc, components c hc⟩) quiet
    rw [ran] at table
    rcases table with same | stored
    · exact ⟨facts, same ▸ indexed, Finset.Subset.refl _, fun _ => .inl⟩
    · refine ⟨_, stored ▸ indexed.indexed_add storable base, Finset.subset_union_left,
        fun c hc => ?_⟩
      refine (Finset.mem_union.mp hc).imp_right fun hc => ?_
      exact ((indexed.mem_newFacts clean).mp (List.mem_toFinset.mp hc)).2
  have kinds' : ∀ c ∈ more, IsSelfFree c := by
    intro c hc
    rcases origin c hc with hc | ⟨d, hd, rfl | inside⟩
    · exact kinds c hc
    · exact selfFree c hd
    · exact (selfFree d hd).of_mem_inside inside
  obtain ⟨found, found', e, e', answers⟩ :=
    indexed.exists_answers_of_subset indexed' subset small₀ small kinds' base free
  refine ⟨fun c hc => ?_, found, found', e, e', fun b regular => ?_⟩
  · rw [indexed.isFact_iff]
    exact origin c (indexed'.isFact_iff.mp hc)
  · simp only [indexed.isFact_iff]
    exact answers b regular

private def person : Concept :=
  .compound [.atom "john", .atom "Person"]

private def personRule : Concept :=
  .compound [.atom "$x", .atom "Person"]

private theorem personRule_free : IsSelfFree personRule :=
  ⟨by decide, by decide⟩

/-- What the query finds where the person is stored. -/
private theorem exists_answer_of_mem {t : Table} {facts : Finset Concept} (h : Indexed t facts)
    (hp : person ∈ facts) : ∃ found b, FactBase.answers ⟨"home", 2⟩ t [personRule] = .ok found ∧
      b ∈ found ∧ b.isGround = true := by
  obtain ⟨found, e, answers⟩ := h.exists_answers_match ⟨"home", 2⟩ personRule_free.clean
    (by decide) ⟨"Person", by decide, by decide⟩ (by decide) false
  have fits : (person.match? personRule).isSome = true := by decide
  have ground : (person.match? personRule).all (·.isGround) = true := by decide
  obtain ⟨b, fits⟩ := Option.isSome_iff_exists.mp fits
  have ground : b.isGround = true := by simpa [fits] using ground
  exact ⟨found, b, e, (answers b).mpr ⟨by simp [ground], person, hp, fits⟩, ground⟩

/-- A space with one fact. -/
private def personSpace : SpaceState :=
  ⟨((Change.add [person]).run ⟨"home", 2⟩ (Store.create .memory)).2, []⟩

/-- A component with a template. -/
private def robotTemplate : List Concept :=
  [.compound [.atom "t", .compound [.atom "@adds", .compound [.atom "$p", .atom "Robot"]]]]

theorem personSpace_answers_kept : Reached IsSelfFree personSpace.store ∧
    ∃ w found found' b, FactBase.addUnder ⟨"home", 2⟩ .accepting (some []) robotTemplate
        personSpace = w ∧
      FactBase.answers ⟨"home", 2⟩ personSpace.store.table [personRule] = .ok found ∧
        FactBase.answers ⟨"home", 2⟩ w.2.store.table [personRule] = .ok found' ∧
          b ∈ found ∧ b ∈ found' := by
  have storable : ∀ c ∈ [person], Storable c := by
    simpa using ⟨by decide, by decide⟩
  have indexed : Indexed personSpace.store.table ([person] ++ [person].flatMap
    Concept.inside).toFinset := indexed_add_create .memory ⟨"home", 2⟩ storable
  have reached : Reached IsSelfFree personSpace.store :=
    .add_create .memory ⟨"home", 2⟩ storable
      (by simpa using ⟨by decide, by decide⟩) (by decide)
  have components : ∀ c ∈ robotTemplate,
      Storable c ∧ IsSelfFree c ∧ Component.ofConcept? c ≠ none := by
    simpa [robotTemplate] using ⟨⟨by decide, by decide⟩, ⟨by decide, by decide⟩, by decide⟩
  have noCondition : ∀ trigger ∈ (Separation.ofConcepts robotTemplate).triggers,
      trigger.conditions = [] := by decide
  have small : (FactBase.addUnder ⟨"home", 2⟩ .accepting (some []) robotTemplate
      personSpace).2.store.table.size < Text.wordCount := by
    rw [table_addUnder_of_conditions
      (fun c hc => ⟨(components c hc).1.clean, (components c hc).2.2⟩) noCondition]
    have few : ((([person] ++ [person].flatMap Concept.inside) ++
        (robotTemplate ++ robotTemplate.flatMap Concept.inside)).flatMap
          fun c => marks c ++ counterKeys c).length < Text.wordCount := by decide +kernel
    refine Nat.lt_of_le_of_lt ((indexed.indexed_add_all (fun c hc => (components c hc).1)
      ⟨"home", 2⟩).size_le fun c hc => ?_) few
    rwa [← List.toFinset_append, List.mem_toFinset] at hc
  obtain ⟨-, found, found', e, e', answers⟩ := reached.answers_after_components
    (Prod.eta _).symm (fun c hc => (components c hc).1) (fun c hc => (components c hc).2.1)
    (fun c hc => (components c hc).2.2)
    (fun trigger ht => firingsOfTrigger_of_conditions (noCondition trigger ht) _ _) small
    (show ∀ r ∈ [personRule], IsSelfFree r by simpa using personRule_free)
  obtain ⟨_, b, e'', member, ground⟩ := exists_answer_of_mem indexed (by decide)
  obtain rfl := Except.ok.inj (e''.symm.trans e)
  have only : ∀ r ∈ [personRule].filter (·.isPattern), r = personRule := fun r hr =>
    List.mem_singleton.mp (List.mem_filter.mp hr).1
  have short : ∀ d ∈ personRule :: personRule.inside, d.parts.length ≤ 2 := by decide
  have regular : IsRegular ([personRule].filter (·.isPattern)) b :=
    ⟨by decide, fun r hr d hd several => by have := short d (only r hr ▸ hd); omega,
      fun r hr r' hr' differ => absurd ((only r hr).trans (only r' hr').symm) differ⟩
  exact ⟨reached, _, _, found', b, rfl, e, e', member, ((answers b regular).mp member).1⟩

/-! ## Templates without variables -/

private def freshSpace : SpaceState :=
  ⟨Store.create .memory, []⟩

/-- A component with a template that has no variable. -/
private def personTemplate : List Concept :=
  [.compound [.atom "t", .compound [.atom "@adds", person]]]

/-- A query can have an answer that comes of a template. -/
theorem freshSpace_answers_change : Reached IsSelfFree freshSpace.store ∧
    (∀ c ∈ personTemplate, Storable c ∧ IsSelfFree c ∧ Component.ofConcept? c ≠ none) ∧
    (∀ trigger ∈ (Separation.ofConcepts personTemplate).triggers,
      FactBase.firingsOfTrigger ⟨"home", 2⟩ freshSpace.store.table trigger = .ok []) ∧
    IsSelfFree personRule ∧ (∀ word ∈ personRule.words, Concept.startsWith '@' word = false) ∧
    FactBase.answers ⟨"home", 2⟩ freshSpace.store.table [personRule] = .ok [] ∧
      ∃ found, FactBase.answers ⟨"home", 2⟩ (FactBase.addUnder ⟨"home", 2⟩ .accepting (some [])
        personTemplate freshSpace).2.store.table [personRule] = .ok found ∧ found ≠ [] := by
  have components : ∀ c ∈ personTemplate,
      Storable c ∧ IsSelfFree c ∧ Component.ofConcept? c ≠ none := by
    simpa [personTemplate] using ⟨⟨by decide, by decide⟩, ⟨by decide, by decide⟩, by decide⟩
  have noCondition : ∀ trigger ∈ (Separation.ofConcepts personTemplate).triggers,
      trigger.conditions = [] := by decide
  have stored := indexed_add_create .memory ⟨"home", 2⟩ fun c hc => (components c hc).1
  have table : (FactBase.addUnder ⟨"home", 2⟩ .accepting (some []) personTemplate
      freshSpace).2.store.table =
        ((Change.add personTemplate).run ⟨"home", 2⟩ (Store.create .memory)).2.table := by
    rw [table_addUnder_of_conditions
      (fun c hc => ⟨(components c hc).1.clean, (components c hc).2.2⟩) noCondition,
      Change.table_add, freshSpace]
  obtain ⟨before, e, none⟩ := Indexed.empty.exists_answers_match ⟨"home", 2⟩
    personRule_free.clean (by decide) ⟨"Person", by decide, by decide⟩
    (by decide) false
  obtain rfl : before = [] := List.eq_nil_iff_forall_not_mem.mpr fun b hb => by
    simpa using (none b).mp hb
  obtain ⟨found, b, e', answer, -⟩ := exists_answer_of_mem stored (by decide)
  exact ⟨.create .memory, components,
    fun trigger ht => firingsOfTrigger_of_conditions (noCondition trigger ht) _ _,
    personRule_free, by decide, e, found, table ▸ e', List.ne_nil_of_mem answer⟩

/-! ## A template that changes the pivot -/

/-- The store of a set with two members. -/
private def coupleSpace : SpaceState :=
  ⟨coupleStore, []⟩

/-- A component whose template is a set with two other members. -/
private def coupleTemplate : List Concept :=
  [.compound [.atom "t",
    .compound [.atom "@adds", .compound [.atom ":", .atom "c", .atom "d"]]]]

private theorem coupleTemplate_spec : ∀ c ∈ coupleTemplate,
    Storable c ∧ IsSelfFree c ∧ Component.ofConcept? c ≠ none := by
  simpa [coupleTemplate] using ⟨⟨by decide, by decide⟩, ⟨by decide, by decide⟩, by decide⟩

/-- The facts when the component is stored. -/
private def definedFacts : List Concept :=
  coupleFacts ++ (coupleTemplate ++ coupleTemplate.flatMap Concept.inside)

/-- Two facts have the mask of the rule that leaves the choice, so that it is the pivot. -/
private theorem answers_of_definedFacts {t : Table} (h : Indexed t definedFacts.toFinset) :
    FactBase.answers ⟨"home", 2⟩ t choiceRules.reverse = .ok [] := by
  have none : (answersOver definedFacts false 2 choiceRules.reverse).toOption.any
      (·.isEmpty) = true := by decide +kernel
  obtain ⟨found, e, none⟩ := h.exists_answers_eq_of_any ⟨"home", 2⟩ none
  rw [e, List.isEmpty_iff.mp none]

/-- Where a rule leaves a choice, a query can lose an answer to a definition that never fires. -/
theorem coupleSpace_loses_answer : Reached IsSelfFree coupleSpace.store ∧
    (∀ c ∈ coupleTemplate, Storable c ∧ IsSelfFree c ∧ Component.ofConcept? c ≠ none) ∧
    (∀ trigger ∈ (Separation.ofConcepts coupleTemplate).triggers,
      FactBase.firingsOfTrigger ⟨"home", 2⟩ coupleSpace.store.table trigger = .ok []) ∧
    (∀ r ∈ choiceRules.reverse, IsSelfFree r) ∧
    (∃ found, FactBase.answers ⟨"home", 2⟩ coupleSpace.store.table choiceRules.reverse = .ok found ∧
      found ≠ []) ∧
      FactBase.answers ⟨"home", 2⟩ (FactBase.addUnder ⟨"home", 2⟩ .accepting (some [])
        coupleTemplate coupleSpace).2.store.table choiceRules.reverse = .ok [] := by
  have noCondition : ∀ trigger ∈ (Separation.ofConcepts coupleTemplate).triggers,
      trigger.conditions = [] := by decide
  refine ⟨coupleStore_reached.mono fun _ fact => fact.toIsSelfFree, coupleTemplate_spec,
    fun trigger ht => firingsOfTrigger_of_conditions (noCondition trigger ht) _ _, ?_,
    answers_choiceRules.2, ?_⟩
  · simpa [choiceRules] using ⟨⟨by decide, by decide⟩, ⟨by decide, by decide⟩⟩
  · have components : ∀ c ∈ coupleTemplate, c.Clean ∧ Component.ofConcept? c ≠ none := fun c hc =>
      ⟨(coupleTemplate_spec c hc).1.clean, (coupleTemplate_spec c hc).2.2⟩
    rw [table_addUnder_of_conditions components noCondition]
    refine answers_of_definedFacts ?_
    rw [definedFacts, List.toFinset_append]
    exact coupleStore_indexed.indexed_add_all (fun c hc => (coupleTemplate_spec c hc).1) _

end ConceptSpace.FactBase
