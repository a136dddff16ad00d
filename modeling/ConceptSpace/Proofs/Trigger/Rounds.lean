import ConceptSpace.Proofs.Trigger.Firings
import ConceptSpace.Proofs.Trigger.Following

/-!
# Rounds fire every solution once

A round fires what its new facts complete, so that the firings of rounds after rounds are the
solutions that were not there before them (`Fires`): a round fires those that use one of its facts
(`exists_opened`), and the later rounds those that become possible after it. Started without facts,
the rounds of any number of additions therefore fire just the solutions over the facts in the end,
each once, and store all that these add (`addSeries_fires_solutions`).
-/

namespace ConceptSpace

open ConceptSpace.Concept (IsPlainFact IsRule)

namespace FactBase

open Storage

/-! ## What was not possible before -/

theorem Solves.mono {facts more : Concept → Prop} {rules : List Concept} {b : Bindings}
    (grows : ∀ c, facts c → more c) (h : Solves facts rules b) : Solves more rules b where
  binds := h.binds
  holds r hr := grows _ (h.holds r hr)

/-- The firings of some triggers that became possible while facts were added. -/
structure Fires (active : List Trigger) (before after : Finset Concept) (firings : List Firing) :
    Prop where
  /-- No fact was lost. -/
  grows : before ⊆ after
  /-- No firing is repeated. -/
  nodup : firings.Nodup
  /-- They are the solutions of conditions that were none before. -/
  mem_iff : ∀ f, f ∈ firings ↔ f.trigger ∈ active ∧
    Solves (· ∈ after) f.trigger.conditions f.bindings ∧
      ¬ Solves (· ∈ before) f.trigger.conditions f.bindings

namespace Fires

variable {active : List Trigger} {before between after : Finset Concept} {fs gs : List Firing}

theorem refl (active : List Trigger) (facts : Finset Concept) : Fires active facts facts [] :=
  ⟨Finset.Subset.refl facts, .nil, fun f => by simp⟩

theorem append (h : Fires active before between fs) (h' : Fires active between after gs) :
    Fires active before after (fs ++ gs) where
  grows := h.grows.trans h'.grows
  nodup := by
    refine List.nodup_append.mpr ⟨h.nodup, h'.nodup, ?_⟩
    rintro f hf g hg rfl
    exact ((h'.mem_iff f).mp hg).2.2 ((h.mem_iff f).mp hf).2.1
  mem_iff f := by
    have early : Solves (· ∈ before) f.trigger.conditions f.bindings →
        Solves (· ∈ between) f.trigger.conditions f.bindings := Solves.mono fun _ hc => h.grows hc
    have late : Solves (· ∈ between) f.trigger.conditions f.bindings →
        Solves (· ∈ after) f.trigger.conditions f.bindings := Solves.mono fun _ hc => h'.grows hc
    rw [List.mem_append, h.mem_iff, h'.mem_iff]
    tauto

end Fires

/-! ## One round -/

/-- Concepts that define no trigger are all taken as facts. -/
theorem separation_of_forall {cs : List Concept} (h : ∀ c ∈ cs, Component.ofConcept? c = none) :
    Separation.ofConcepts cs = ⟨cs, [], []⟩ := by
  have facts : cs.filter (fun c => (Component.ofConcept? c).isNone) = cs :=
    List.filter_eq_self.mpr fun c hc => by simp [h c hc]
  have components : cs.filter (fun c => (Component.ofConcept? c).isSome) = [] :=
    List.filter_eq_nil_iff.mpr fun c hc => by simp [h c hc]
  have triggers : cs.filterMap Component.ofConcept? = [] :=
    List.filterMap_eq_nil_iff.mpr h
  rw [Separation.ofConcepts, facts, components, triggers]
  rfl

/-- Nothing to add changes nothing. -/
theorem changeTable_add_nil (base : FactBase) (w : SpaceState) :
    Run.changeTable (base.add []) w = (.ok [], w) := by
  rw [Run.changeTable, add_nil]

/-- A space that holds plain facts. -/
structure Holds (w : SpaceState) (facts : Finset Concept) : Prop where
  /-- The table has what the facts are stored as. -/
  indexed : Indexed w.store.table facts
  /-- The facts are plain. -/
  plain : ∀ c ∈ facts, IsPlainFact c

/-- What starting a round with some concepts comes to. -/
structure Opened (active : List Trigger) (cs : List Concept) (w : SpaceState)
    (before after : Finset Concept) (o : Opening) : Prop where
  /-- The space holds the new facts. -/
  holds : Holds w after
  /-- The given concepts are among them. -/
  given : ∀ c ∈ cs, c ∈ after
  /-- The same triggers stay active. -/
  kept : o.active = active
  /-- No trigger is defined. -/
  components : o.components = []
  /-- The firings are those that have become possible. -/
  fires : Fires active before after o.firings
  /-- Nothing is removed. -/
  removals : o.changes.removals = []
  /-- What is added are plain facts. -/
  additions : ∀ c ∈ o.changes.additions, IsPlainFact c
  /-- The firings have their instances added. -/
  caused : ∀ f ∈ o.firings, ∀ a ∈ f.trigger.additions,
    a.instantiate f.bindings ∈ o.changes.additions

section Round

variable {base : FactBase} {active : List Trigger} {facts : Finset Concept} {cs : List Concept}
  {w w' : SpaceState} (regular : ∀ trigger ∈ active, trigger.IsRegular)
  (names : (active.map (·.name.key)).Nodup) (holds : Holds w facts)
  (plain : ∀ c ∈ cs, IsPlainFact c)

/-- Adding clean concepts gives a space that has them, and what stands inside them, besides the
facts that it had. -/
theorem indexed_of_changeTable (indexed : Indexed w.store.table facts) (clean : ∀ c ∈ cs, c.Clean)
    {new : List Concept} (ok : Run.changeTable (base.add cs) w = (.ok new, w'))
    (fits : ∀ c ∈ new, Key.FitsMemory c.key) :
    Indexed w'.store.table (facts ∪ new.toFinset) ∧
      (∀ c ∈ new, c ∉ facts ∧ ∃ d ∈ cs, c = d ∨ c ∈ d.inside) ∧
        ∀ c ∈ cs, c ∈ facts ∪ new.toFinset := by
  obtain ⟨added, table⟩ := Run.eq_of_changeTable ok
  obtain rfl : base.newFacts w.store.table cs = new :=
    Except.ok.inj ((indexed.add clean base).1.symm.trans added)
  have new_iff : ∀ c, c ∈ base.newFacts w.store.table cs ↔
      c ∉ facts ∧ ∃ d ∈ cs, c = d ∨ c ∈ d.inside := fun c => indexed.mem_newFacts clean
  have given : ∀ c ∈ cs, c ∉ facts → c ∈ base.newFacts w.store.table cs := fun c hc absent =>
    (new_iff c).mpr ⟨absent, c, hc, .inl rfl⟩
  have storable : ∀ c ∈ cs, Storable c := fun c hc => by
    by_cases stored : c ∈ facts
    · exact indexed.storable c stored
    · exact ⟨clean c hc, fits c (given c hc stored)⟩
  refine ⟨table ▸ indexed.indexed_add storable base, fun c hc => (new_iff c).mp hc,
    fun c hc => ?_⟩
  by_cases stored : c ∈ facts
  · exact Finset.mem_union_left _ stored
  · exact Finset.mem_union_right _ (List.mem_toFinset.mpr (given c hc stored))

include holds plain in
/-- Adding plain concepts gives a space that holds them besides the facts that it held. -/
theorem Holds.add {new : List Concept} (ok : Run.changeTable (base.add cs) w = (.ok new, w'))
    (fits : ∀ c ∈ new, Key.FitsMemory c.key) :
    Holds w' (facts ∪ new.toFinset) ∧ (∀ c ∈ new, c ∉ facts) ∧
      ∀ c ∈ cs, c ∈ facts ∪ new.toFinset := by
  obtain ⟨indexed, origin, given⟩ :=
    indexed_of_changeTable holds.indexed (fun c hc => (plain c hc).clean) ok fits
  refine ⟨⟨indexed, fun c hc => ?_⟩, fun c hc => (origin c hc).1, given⟩
  rcases Finset.mem_union.mp hc with hc | hc
  · exact holds.plain c hc
  · obtain ⟨-, d, hd, rfl | inside⟩ := origin c (List.mem_toFinset.mp hc)
    · exact plain c hd
    · exact (plain d hd).of_mem_inside inside

/-- The firings that use new facts are those that became possible with them. -/
theorem fires_of_mem_iff {new : List Concept} {firings : List Firing}
    (fresh : ∀ c ∈ new, c ∉ facts) (nodup : firings.Nodup)
    (h : ∀ f, f ∈ firings ↔ f.trigger ∈ active ∧
      Solves (· ∈ facts ∪ new.toFinset) f.trigger.conditions f.bindings ∧
        ∃ c ∈ f.trigger.conditions, c.instantiate f.bindings ∈ new) :
    Fires active facts (facts ∪ new.toFinset) firings where
  grows := Finset.subset_union_left
  nodup := nodup
  mem_iff f := by
    rw [h]
    refine and_congr_right fun _ => and_congr_right fun solves => ?_
    constructor
    · rintro ⟨c, hc, isNew⟩ before
      exact fresh _ isNew (before.holds c hc)
    · intro notBefore
      by_contra none
      refine notBefore ⟨solves.binds, fun c hc => ?_⟩
      refine (Finset.mem_union.mp (solves.holds c hc)).resolve_right fun isNew => none ?_
      exact ⟨c, hc, List.mem_toFinset.mp isNew⟩

/-- The start of a round that succeeds: no new trigger has the name of an active one, and the facts
are stored; if there is nothing new that is all, or else the firings are found, and what they
cause. -/
theorem exists_of_openRound {given : Separation} (separated : Separation.ofConcepts cs = given)
    {result : Option Opening} (ok : base.openRound active cs w = (.ok result, w')) :
    ∃ new, clash? active given.triggers = none ∧
      Run.changeTable (base.add given.facts) w = (.ok new, w') ∧
        ((new = [] ∧ given.triggers = [] ∧ result = none) ∨
          ∃ firings changes,
            base.firings w'.store.table (active ++ given.triggers) new given.triggers =
              .ok firings ∧
            Changes.ofFirings firings = .ok changes ∧
            result = some ⟨active ++ given.triggers, new, given.triggers, given.components,
              firings, changes⟩) := by
  subst separated
  rw [openRound] at ok
  cases clash : clash? active (Separation.ofConcepts cs).triggers with
  | some trigger =>
    simp only [clash] at ok
    cases (Prod.mk.inj ok).1
  | none =>
    simp only [clash] at ok
    obtain ⟨new, v, added, ok⟩ := Run.exists_of_bind ok
    split at ok
    case isTrue none =>
      obtain ⟨rfl, noTrigger⟩ : new = [] ∧ (Separation.ofConcepts cs).triggers = [] := by
        simpa using none
      obtain ⟨rfl, rfl⟩ := Run.eq_of_pure ok
      exact ⟨[], rfl, added, .inl ⟨rfl, noTrigger, rfl⟩⟩
    case isFalse =>
      obtain ⟨firings, v', asked, ok⟩ := Run.exists_of_bind ok
      obtain ⟨changes, v'', weighed, ok⟩ := Run.exists_of_bind ok
      obtain ⟨rfl, rfl⟩ := Run.eq_of_pure ok
      obtain ⟨found, rfl⟩ := Run.eq_of_ask asked
      obtain ⟨caused, rfl⟩ := Run.eq_of_ask weighed
      exact ⟨new, rfl, added, .inr ⟨firings, changes, found, caused, rfl⟩⟩

include regular names holds plain in
/-- A round fires what its facts complete; if they were all stored before, it fires nothing. -/
theorem exists_opened {result : Option Opening} (ok : base.openRound active cs w = (.ok result, w'))
    (noComponent : ∀ c ∈ cs, Component.ofConcept? c = none)
    (fits : ∀ o, result = some o → ∀ c ∈ o.facts, Key.FitsMemory c.key) :
    (result = none ∧ Holds w' facts ∧ ∀ c ∈ cs, c ∈ facts) ∨
      ∃ o after, result = some o ∧ Opened active cs w' facts after o := by
  obtain ⟨new, -, added, ⟨rfl, -, rfl⟩ | ⟨firings, changes, found, caused, rfl⟩⟩ :=
    exists_of_openRound (separation_of_forall noComponent) ok
  · obtain ⟨holds, -, given⟩ := Holds.add holds plain added (by simp)
    exact .inl ⟨rfl, by simpa using holds, by simpa using given⟩
  · rw [List.append_nil] at found
    obtain ⟨holds', fresh, given⟩ := Holds.add holds plain added (fits _ rfl)
    have isFact : ∀ c ∈ new, c ∈ facts ∪ new.toFinset := fun c hc =>
      Finset.mem_union_right _ (List.mem_toFinset.mpr hc)
    obtain ⟨found', e, nodup, firings_iff⟩ :=
      exists_firings_eq holds'.indexed holds'.plain regular names isFact
    obtain rfl : found' = firings := Except.ok.inj (e.symm.trans found)
    have values : ∀ f ∈ found', f.trigger.IsRegular ∧ f.bindings.AllValues IsPlainFact ∧
        Solves (· ∈ facts ∪ new.toFinset) f.trigger.conditions f.bindings := by
      intro f hf
      obtain ⟨ht, solves, -⟩ := (firings_iff f).mp hf
      exact ⟨regular _ ht, allValues_of_solves holds'.plain (regular _ ht) solves, solves⟩
    obtain ⟨removals, additions⟩ := Changes.mem_additions_ofFirings
      (fun f hf => (values f hf).1.removals)
      (fun f hf a ha => ((values f hf).1.additions a ha).isSelfFree)
      (fun f hf _ _ e => ((values f hf).2.1 e).isSelfFree) caused
    refine .inr ⟨_, facts ∪ new.toFinset, rfl, holds', given, List.append_nil active, rfl,
      fires_of_mem_iff fresh nodup firings_iff, removals, fun c hc => ?_, fun f hf a ha => ?_⟩
    · obtain ⟨f, hf, a, ha, rfl⟩ := (additions c).mp hc
      obtain ⟨trigger, plainValues, solves⟩ := values f hf
      refine ⟨(trigger.additions a ha).instantiate fun _ _ e => (plainValues e).toIsPlain, ?_⟩
      exact (trigger.additions a ha).clean.isGround_instantiate
        (fun _ _ e => (plainValues e).ground)
        fun name hn => (solves.binds name).mpr (trigger.bound a ha name hn)
    · exact (additions _).mpr ⟨f, hf, a, ha, rfl⟩

/-- The end of a round that succeeds: the firings remove what they remove, then the components are
stored. -/
theorem exists_of_closeRound {notifier : Notifier} {o : Opening} {round : Round}
    (ok : base.closeRound notifier o w = (.ok round, w')) : ∃ removed new v,
      base.retract o.changes.removals
          { w with journal := notifier.deliver w.journal o.changes.notifications } =
        (.ok removed, v) ∧
      Run.changeTable (base.add o.components) v = (.ok new, w') ∧
        round = ⟨o.facts ++ new, o.newTriggers, o.firings, o.changes, removed⟩ := by
  rw [closeRound] at ok
  obtain ⟨_, _, sent, ok⟩ := Run.exists_of_bind ok
  obtain ⟨removed, v, retracted, ok⟩ := Run.exists_of_bind ok
  obtain ⟨new, _, added, ok⟩ := Run.exists_of_bind ok
  obtain ⟨rfl, rfl⟩ := Run.eq_of_pure ok
  obtain ⟨-, rfl⟩ := Prod.mk.inj sent
  exact ⟨removed, new, v, retracted, added, rfl⟩

/-- The end of a round whose firings remove nothing stores the components. -/
theorem exists_of_closeRound_of_removals {notifier : Notifier} {o : Opening} {round : Round}
    (ok : base.closeRound notifier o w = (.ok round, w')) (removals : o.changes.removals = []) :
    ∃ new v, v.store = w.store ∧ Run.changeTable (base.add o.components) v = (.ok new, w') ∧
      round.added = o.facts ++ new := by
  obtain ⟨removed, new, v, retracted, added, rfl⟩ := exists_of_closeRound ok
  rw [removals] at retracted
  obtain ⟨-, rfl⟩ := Run.eq_of_pure retracted
  refine ⟨new, _, ?_, added, rfl⟩
  rfl

end Round

/-! ## All rounds -/

/-- What the rounds of an addition come to. -/
structure Ran (active : List Trigger) (cs : List Concept) (w : SpaceState) (before : Finset Concept)
    (after : Finset Concept) (rounds : List Round) : Prop where
  /-- The space holds the facts in the end. -/
  holds : Holds w after
  /-- The given concepts are among them. -/
  given : ∀ c ∈ cs, c ∈ after
  /-- The rounds fire what has become possible. -/
  fires : Fires active before after (rounds.flatMap (·.firings))
  /-- What the firings add is stored. -/
  stored : ∀ f ∈ rounds.flatMap (·.firings), ∀ a ∈ f.trigger.additions,
    a.instantiate f.bindings ∈ after

theorem Ran.append {active : List Trigger} {cs more : List Concept} {w w' : SpaceState}
    {before between after : Finset Concept} {rounds later : List Round}
    (h : Ran active cs w before between rounds) (h' : Ran active more w' between after later) :
    Ran active (cs ++ more) w' before after (rounds ++ later) where
  holds := h'.holds
  given c hc := by
    rcases List.mem_append.mp hc with hc | hc
    · exact h'.fires.grows (h.given c hc)
    · exact h'.given c hc
  fires := by
    rw [List.flatMap_append]
    exact h.fires.append h'.fires
  stored f hf a ha := by
    rw [List.flatMap_append, List.mem_append] at hf
    rcases hf with hf | hf
    · exact h'.fires.grows (h.stored f hf a ha)
    · exact h'.stored f hf a ha

/-- What holds of the concepts that a run of rounds deals with: what its firings add defines no
trigger, and memory holds what it stores. -/
structure IsTame (rounds : List Round) : Prop where
  /-- No trigger is defined. -/
  noComponent : ∀ round ∈ rounds, ∀ c ∈ round.changes.additions, Component.ofConcept? c = none
  /-- Memory holds the new facts. -/
  fits : ∀ round ∈ rounds, ∀ c ∈ round.added, Key.FitsMemory c.key

instance (rounds : List Round) : Decidable (IsTame rounds) :=
  decidable_of_iff
    ((∀ round ∈ rounds, ∀ c ∈ round.changes.additions, Component.ofConcept? c = none) ∧
      ∀ round ∈ rounds, ∀ c ∈ round.added, Key.FitsMemory c.key)
    ⟨fun h => ⟨h.1, h.2⟩, fun h => ⟨h.1, h.2⟩⟩

theorem IsTame.append_left {rounds more : List Round} (h : IsTame (rounds ++ more)) :
    IsTame rounds where
  noComponent round hr := h.noComponent round (List.mem_append_left _ hr)
  fits round hr := h.fits round (List.mem_append_left _ hr)

theorem IsTame.append_right {rounds more : List Round} (h : IsTame (rounds ++ more)) :
    IsTame more where
  noComponent round hr := h.noComponent round (List.mem_append_right _ hr)
  fits round hr := h.fits round (List.mem_append_right _ hr)

variable {base : FactBase} {notifier : Notifier} {active : List Trigger}

/-- The rounds of an addition that succeeds, from the space before them to the space after them. -/
inductive Addition (base : FactBase) (notifier : Notifier) :
    List Trigger → List Concept → SpaceState → List Round → SpaceState → Prop where
  /-- Without concepts there is none. -/
  | nil (active : List Trigger) (w : SpaceState) : Addition base notifier active [] w [] w
  /-- The last finds nothing new. -/
  | last {active : List Trigger} {cs : List Concept} {w w' : SpaceState}
      (opened : base.openRound active cs w = (.ok none, w')) :
      Addition base notifier active cs w [{}] w'
  /-- Any other has the later ones between its start and its end. -/
  | around {active : List Trigger} {cs : List Concept} {w v u w' : SpaceState} {o : Opening}
      {round : Round} {later : List Round} (opened : base.openRound active cs w = (.ok (some o), v))
      (inner : Addition base notifier o.active o.changes.additions v later u)
      (closed : base.closeRound notifier o u = (.ok round, w')) :
      Addition base notifier active cs w (round :: later) w'

theorem ComesTo.addition {cs : List Concept} {w w' : SpaceState} {rounds : List Round}
    (h : ComesTo base notifier active cs w (.ok rounds) w') :
    Addition base notifier active cs w rounds w' := by
  generalize e : Except.ok rounds = result at h
  induction h generalizing rounds with
  | nil active w =>
    obtain rfl := Except.ok.inj e
    exact .nil active w
  | failed => cases e
  | last opened =>
    obtain rfl := Except.ok.inj e
    exact .last opened
  | around opened inner concluded ih =>
    subst e
    obtain ⟨later, round, rfl, closed, rfl⟩ := exists_of_concludeRound concluded
    exact .around opened (ih rfl) closed

theorem addition_of_addRounds {cs : List Concept} {w w' : SpaceState} {rounds : List Round}
    (ok : base.addRounds notifier active cs w = (.ok rounds, w')) :
    Addition base notifier active cs w rounds w' :=
  (comesTo_of_addRounds ok nofun).addition

/-- The rounds of an addition fire what becomes possible, and store what the firings add. -/
theorem Addition.exists_ran {cs : List Concept} {w w' : SpaceState} {facts : Finset Concept}
    {rounds : List Round} (run : Addition base notifier active cs w rounds w')
    (regular : ∀ trigger ∈ active, trigger.IsRegular) (names : (active.map (·.name.key)).Nodup)
    (holds : Holds w facts) (plain : ∀ c ∈ cs, IsPlainFact c)
    (noComponent : ∀ c ∈ cs, Component.ofConcept? c = none) (tame : IsTame rounds) :
    ∃ after, Ran active cs w' facts after rounds := by
  -- The induction is on the rounds: the later ones of a round start with what its firings add.
  induction run generalizing facts with
  | nil active w => exact ⟨facts, holds, by simp, .refl active facts, by simp⟩
  | last opened =>
    rcases exists_opened regular names holds plain opened noComponent (by simp) with
      ⟨-, holds, given⟩ | ⟨o, -, e, -⟩
    · exact ⟨facts, holds, given, .refl _ facts, by simp⟩
    · exact absurd e nofun
  | @around active cs w v u w' o round later opened inner closed ih =>
    obtain ⟨firings, changes, facts_subset⟩ : round.firings = o.firings ∧
        round.changes = o.changes ∧ o.facts ⊆ round.added := by
      obtain ⟨removed, new, -, -, -, rfl⟩ := exists_of_closeRound closed
      exact ⟨rfl, rfl, List.subset_append_left _ _⟩
    have fits : ∀ o', some o = some o' → ∀ c ∈ o'.facts, Key.FitsMemory c.key := by
      rintro _ ⟨rfl⟩ c hc
      exact tame.fits round (by simp) c (facts_subset hc)
    rcases exists_opened regular names holds plain opened noComponent fits with
      ⟨e, -⟩ | ⟨_, between, ⟨rfl⟩, start⟩
    · exact absurd e nofun
    · have tail : IsTame later := (show IsTame ([round] ++ later) from tame).append_right
      rw [start.kept] at ih
      obtain ⟨after, rest⟩ := ih regular names start.holds start.additions
        (changes ▸ tame.noComponent round (by simp)) tail
      have fires := start.fires.append rest.fires
      refine ⟨after, ?_, fun c hc => rest.fires.grows (start.given c hc), ?_, ?_⟩
      · obtain ⟨_, v', same, added, -⟩ := exists_of_closeRound_of_removals closed start.removals
        rw [start.components] at added
        obtain ⟨-, table⟩ := Run.eq_of_changeTable added
        rw [add_nil, same] at table
        exact ⟨table ▸ rest.holds.indexed, rest.holds.plain⟩
      · rwa [List.flatMap_cons, firings]
      · intro f hf a ha
        rw [List.flatMap_cons, firings, List.mem_append] at hf
        rcases hf with hf | hf
        · exact rest.given _ (start.caused f hf a ha)
        · exact rest.stored f hf a ha

/-- Adds several lists of concepts, one after the other. -/
def addSeries (base : FactBase) (notifier : Notifier) (active : List Trigger) :
    List (List Concept) → Run (List Round)
  | [] => return []
  | cs :: more => do
    let rounds ← base.addRounds notifier active cs
    let later ← addSeries base notifier active more
    return rounds ++ later

/-- The rounds of additions one after the other fire what becomes possible in all of them. -/
theorem exists_ran_addSeries {inputs : List (List Concept)} {w w' : SpaceState}
    {facts : Finset Concept} {rounds : List Round}
    (regular : ∀ trigger ∈ active, trigger.IsRegular) (names : (active.map (·.name.key)).Nodup)
    (ok : base.addSeries notifier active inputs w = (.ok rounds, w')) (holds : Holds w facts)
    (plain : ∀ input ∈ inputs, ∀ c ∈ input, IsPlainFact c ∧ Component.ofConcept? c = none)
    (tame : IsTame rounds) : ∃ after, Ran active inputs.flatten w' facts after rounds := by
  induction inputs generalizing w facts rounds with
  | nil =>
    obtain ⟨rfl, rfl⟩ := Run.eq_of_pure ok
    exact ⟨facts, holds, by simp, .refl active facts, by simp⟩
  | cons cs inputs ih =>
    rw [addSeries] at ok
    obtain ⟨first, v, ran, ok⟩ := Run.exists_of_bind ok
    obtain ⟨later, v', series, ok⟩ := Run.exists_of_bind ok
    obtain ⟨rfl, rfl⟩ := Run.eq_of_pure ok
    have own := plain cs (by simp)
    obtain ⟨between, start⟩ := (addition_of_addRounds ran).exists_ran regular names holds
      (fun c hc => (own c hc).1) (fun c hc => (own c hc).2) tame.append_left
    obtain ⟨after, rest⟩ := ih series start.holds (fun input hi => plain input (by simp [hi]))
      tame.append_right
    exact ⟨after, start.append rest⟩

/-! ## Main statement -/

/-- Whatever plain facts are added to an empty space under triggers that only add, in any number of
additions that all succeed: their rounds fire just the solutions of the conditions over the facts in
the end, no firing is repeated, and what the firings add is stored. -/
theorem addSeries_fires_solutions {backend : Backend} {journal : List Delivery}
    {inputs : List (List Concept)} {rounds : List Round} {w : SpaceState}
    (regular : ∀ trigger ∈ active, trigger.IsRegular) (names : (active.map (·.name.key)).Nodup)
    (plain : ∀ input ∈ inputs, ∀ c ∈ input, IsPlainFact c ∧ Component.ofConcept? c = none)
    (ok : base.addSeries notifier active inputs ⟨Store.create backend, journal⟩ = (.ok rounds, w))
    (tame : IsTame rounds) :
    (rounds.flatMap (·.firings)).Nodup ∧
      (∀ f, f ∈ rounds.flatMap (·.firings) ↔ f.trigger ∈ active ∧
        Solves (IsFact w.store.table) f.trigger.conditions f.bindings) ∧
      ∀ f : Firing, f.trigger ∈ active →
        Solves (IsFact w.store.table) f.trigger.conditions f.bindings →
          ∀ a ∈ f.trigger.additions, IsFact w.store.table (a.instantiate f.bindings) := by
  have start : Holds ⟨Store.create backend, journal⟩ ∅ := ⟨.empty, by simp⟩
  obtain ⟨facts, ran⟩ := exists_ran_addSeries regular names ok start plain tame
  have same : IsFact w.store.table = (· ∈ facts) :=
    funext fun c => propext ran.holds.indexed.isFact_iff
  have fires : ∀ f, f ∈ rounds.flatMap (·.firings) ↔ f.trigger ∈ active ∧
      Solves (· ∈ facts) f.trigger.conditions f.bindings := by
    intro f
    rw [ran.fires.mem_iff]
    refine and_congr_right fun ht => and_iff_left fun none => ?_
    obtain ⟨c, hc⟩ := List.exists_mem_of_ne_nil _ (regular _ ht).nonempty
    exact absurd (none.holds c hc) (Finset.notMem_empty _)
  rw [same]
  exact ⟨ran.fires.nodup, fires, fun f ht solves => ran.stored f ((fires f).mpr ⟨ht, solves⟩)⟩

/-- A trigger that waits for two facts about the same thing. -/
private def meeting : Trigger where
  name := .atom "meeting"
  conditions := [.compound [.atom "a", .atom "$x"], .compound [.atom "b", .atom "$x"]]
  additions := [.compound [.atom "c", .atom "$x"]]

private def earlierInput : List Concept := [.compound [.atom "a", .atom "k"]]

private def laterInput : List Concept := [.compound [.atom "b", .atom "k"]]

/-- The two facts are added under this trigger one after the other, to an empty space. -/
private def meetingRun : Except Error (List Round) × SpaceState :=
  addSeries ⟨"home", 9⟩ .accepting [meeting] [earlierInput, laterInput] ⟨Store.create .memory, []⟩

/-- The rounds of both additions, and the facts that they leave. -/
private def meetingOver : Except Error (List Round × List Concept) := do
  let (first, facts) ← roundsOver 1 [meeting] earlierInput []
  let (second, facts) ← roundsOver 2 [meeting] laterInput facts
  return (first ++ second, facts)

theorem meetingRun_eq : ∃ rounds w, meetingRun = (.ok rounds, w) ∧ IsTame rounds ∧
    ∀ c ∈ earlierInput ++ laterInput, contains w.store.table c = true := by
  have checked : meetingOver.toOption.any (fun r => decide (IsTame r.1) &&
      (earlierInput ++ laterInput).all fun c => r.2.any (·.same c)) = true := by decide +kernel
  rcases found : meetingOver with _ | ⟨rounds, facts⟩
  · rw [found] at checked
    cases checked
  rw [found] at checked
  obtain ⟨tame, stored⟩ := Bool.and_eq_true_iff.mp checked
  obtain ⟨⟨first, between⟩, ran, found⟩ := Sequence.exists_of_bind_eq_ok found
  obtain ⟨⟨second, after⟩, ran', found⟩ := Sequence.exists_of_bind_eq_ok found
  obtain ⟨rfl, rfl⟩ := Prod.mk.inj (Except.ok.inj found)
  obtain ⟨v, comes, shows⟩ := (Shows.create .memory []).exists_comesTo ran ⟨"home", 9⟩ .accepting
  obtain ⟨w, comes', shows⟩ := shows.exists_comesTo ran' ⟨"home", 9⟩ .accepting
  refine ⟨first ++ second, w, ?_, of_decide_eq_true tame, fun c hc => ?_⟩
  · rw [meetingRun, addSeries, Run.bind_of_ok comes.addRounds_eq, addSeries,
      Run.bind_of_ok (Run.bind_of_ok comes'.addRounds_eq _), List.append_nil]
    rfl
  · exact (shows.contains_eq c).trans (List.all_eq_true.mp stored c hc)

theorem addSeries_meeting_fires : ∃ rounds w, meetingRun = (.ok rounds, w) ∧
      ⟨meeting, (∅ : Bindings).insert "$x" (.atom "k")⟩ ∈ rounds.flatMap (·.firings) ∧
        IsFact w.store.table (.compound [.atom "c", .atom "k"]) := by
  have plain : ∀ input ∈ [earlierInput, laterInput], ∀ c ∈ input,
      IsPlainFact c ∧ Component.ofConcept? c = none := by
    simp only [earlierInput, laterInput, List.mem_cons, List.not_mem_nil, or_false, forall_eq_or_imp,
      forall_eq]
    exact ⟨⟨⟨⟨by decide, by decide, by decide⟩, by decide⟩, by decide⟩,
      ⟨⟨by decide, by decide, by decide⟩, by decide⟩, by decide⟩
  have regular : ∀ trigger ∈ [meeting], trigger.IsRegular := by
    simp only [List.mem_singleton, forall_eq]
    refine ⟨by simp [meeting], ?_, ?_, ?_, rfl⟩ <;>
      simp only [meeting, List.mem_cons, List.not_mem_nil, or_false, forall_eq_or_imp, forall_eq]
    · exact ⟨⟨⟨by decide, by decide, by decide⟩, rfl, "a", by decide, by decide⟩,
        ⟨by decide, by decide, by decide⟩, rfl, "b", by decide, by decide⟩
    · exact ⟨by decide, by decide, by decide⟩
    · exact fun name hn => ⟨_, .inl rfl, hn⟩
  obtain ⟨rounds, w, ok, tame, stored⟩ := meetingRun_eq
  obtain ⟨-, firings, additions⟩ := addSeries_fires_solutions regular (by decide) plain ok tame
  have solves : Solves (IsFact w.store.table) meeting.conditions
      ((∅ : Bindings).insert "$x" (.atom "k")) := by
    refine ⟨fun name => ?_, fun r hr => ?_⟩
    · have vars : ∀ r ∈ meeting.conditions, r.vars = ["$x"] := by decide
      rcases eq_or_ne name "$x" with rfl | other
      · exact iff_of_true (by simp) ⟨_, List.mem_cons_self .., by decide⟩
      · refine iff_of_false (by simp [other.symm]) ?_
        rintro ⟨r, hr, hn⟩
        exact other (by simpa [vars r hr] using hn)
    · have becomes : ∀ r ∈ meeting.conditions,
          r.instantiate ((∅ : Bindings).insert "$x" (.atom "k")) ∈ earlierInput ++ laterInput ∧
            (r.instantiate ((∅ : Bindings).insert "$x" (.atom "k"))).Clean := by decide
      exact ⟨(becomes r hr).2, stored _ (becomes r hr).1⟩
  refine ⟨rounds, w, ok, (firings _).mpr ⟨by simp, solves⟩, ?_⟩
  have added := additions ⟨meeting, _⟩ (by simp) solves _ (List.mem_singleton.mpr rfl)
  have becomes : (Concept.compound [.atom "c", .atom "$x"]).instantiate
      ((∅ : Bindings).insert "$x" (.atom "k")) = .compound [.atom "c", .atom "k"] := by decide
  exact becomes ▸ added

end FactBase

end ConceptSpace
