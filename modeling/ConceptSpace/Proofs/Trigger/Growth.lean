import ConceptSpace.Proofs.Facts.Completeness
import ConceptSpace.Proofs.Trigger.Bound
import ConceptSpace.Proofs.Trigger.Rounds

/-!
# Where stored triggers come from

An addition stores the components of the triggers that it reports, and everything that stands inside
the concepts that it stores. Whatever triggers fire, as long as none of them removes facts, the
components that have become facts are therefore those that are reported, and such as stand inside a
fact (`exists_ranOver_addAll`).
-/

namespace ConceptSpace

open ConceptSpace.Concept (IsSelfFree)

/-- The arguments of a trigger are clean and have no `&`. -/
def Trigger.IsFree (t : Trigger) : Prop :=
  ∀ role, ∀ a ∈ t.arguments role, IsSelfFree a

theorem Trigger.isFree_of_isStated {ts : List Trigger}
    (h : ∀ d, IsStated ts d → IsSelfFree d.toConcept) : ∀ t ∈ ts, t.IsFree := by
  intro t ht role a ha
  have stated : IsSelfFree (Component.toConcept ⟨t.name, role, a⟩) := h _ ⟨t, ht, rfl, ha⟩
  exact stated.of_mem_inside (Component.mem_inside_toConcept _).2

namespace FactBase

open Storage

variable {t : Table} {facts : Finset Concept} {base : FactBase} {active : List Trigger}

/-- Rules without `&` bind facts, and become such rules when facts are put in. -/
theorem Indexed.serves (h : Indexed t facts) (selfFree : ∀ c ∈ facts, IsSelfFree c) :
    Serves base t IsSelfFree (· ∈ facts) where
  instances stored free :=
    fun _ => Source.isSelfFree_of_substitute free fun _ _ hm =>
      selfFree _ (stored (Bindings.mem_values_iff.mp hm))
  answers free := fun _ => h.stored_of_answers free selfFree
  fits hr hc := h.stored_of_match? hr.clean hc

/-! ## Growing facts -/

/-- A space that holds clean facts without `&`. -/
structure Stores (w : SpaceState) (facts : Finset Concept) : Prop where
  /-- The table has what the facts are stored as. -/
  indexed : Indexed w.store.table facts
  /-- The facts are clean and have no `&`. -/
  selfFree : ∀ c ∈ facts, IsSelfFree c

/-- Facts that become more while components are reported. -/
structure Grew (before after : Finset Concept) (reported : Component → Prop) : Prop where
  /-- No fact was lost. -/
  grows : before ⊆ after
  /-- What is reported is stored. -/
  stored : ∀ d, reported d → d.toConcept ∈ after
  /-- What else has become a fact stands inside a fact. -/
  origin : ∀ d : Component, d.toConcept ∈ after →
    d.toConcept ∈ before ∨ reported d ∨ ∃ e ∈ after, d.toConcept ∈ e.inside

namespace Grew

variable {before between after : Finset Concept} {reported later : Component → Prop}

theorem refl (facts : Finset Concept) : Grew facts facts fun _ => False :=
  ⟨Finset.Subset.refl facts, fun _ => False.elim, fun _ => .inl⟩

theorem append (h : Grew before between reported) (h' : Grew between after later) :
    Grew before after fun d => reported d ∨ later d where
  grows := h.grows.trans h'.grows
  stored d hd := hd.elim (fun hd => h'.grows (h.stored d hd)) (h'.stored d)
  origin d hd := by
    rcases h'.origin d hd with hd | hd | inside
    · rcases h.origin d hd with hd | hd | ⟨e, he, inside⟩
      · exact .inl hd
      · exact .inr (.inl (.inl hd))
      · exact .inr (.inr ⟨e, h'.grows he, inside⟩)
    · exact .inr (.inl (.inr hd))
    · exact .inr (.inr inside)

theorem congr (h : Grew before after reported) (same : ∀ d, later d ↔ reported d) :
    Grew before after later :=
  funext (fun d => propext (same d)) ▸ h

end Grew

section Round

variable {w w' : SpaceState} {cs : List Concept} (stores : Stores w facts)
  (free : ∀ c ∈ cs, IsSelfFree c)

include stores free in
/-- Adding concepts makes the components among them facts, and others stand inside them. -/
theorem Stores.add {new : List Concept} (ok : Run.changeTable (base.add cs) w = (.ok new, w'))
    (fits : ∀ c ∈ new, Key.FitsMemory c.key) : Stores w' (facts ∪ new.toFinset) ∧
      Grew facts (facts ∪ new.toFinset) (·.toConcept ∈ cs) := by
  obtain ⟨indexed, origin, given⟩ :=
    indexed_of_changeTable stores.indexed (fun c hc => (free c hc).clean) ok fits
  refine ⟨⟨indexed, fun c hc => ?_⟩, Finset.subset_union_left, fun d => given _, fun d hd => ?_⟩
  · rcases Finset.mem_union.mp hc with hc | hc
    · exact stores.selfFree c hc
    · obtain ⟨-, d, hd, rfl | inside⟩ := origin c (List.mem_toFinset.mp hc)
      · exact free c hd
      · exact (free d hd).of_mem_inside inside
  · refine (Finset.mem_union.mp hd).imp_right fun hd => ?_
    obtain ⟨-, e, he, rfl | inside⟩ := origin _ (List.mem_toFinset.mp hd)
    · exact .inl he
    · exact .inr ⟨e, given e he, inside⟩

/-- Firings of triggers that remove nothing add clean concepts without `&`. -/
theorem Stores.changes_of_firings (stores : Stores w facts)
    (freeActive : ∀ trigger ∈ active, trigger.IsFree) {new : List Concept}
    {newTriggers : List Trigger} {fs : List Firing} {changes : Changes} (hn : ∀ c ∈ new, c ∈ facts)
    (among : ∀ trigger ∈ newTriggers, trigger ∈ active)
    (found : base.firings w.store.table active new newTriggers = .ok fs)
    (caused : Changes.ofFirings fs = .ok changes)
    (additive : ∀ f ∈ fs, f.trigger.removals = []) :
    changes.removals = [] ∧ ∀ c ∈ changes.additions, IsSelfFree c := by
  have bound := (stores.indexed.serves stores.selfFree).firings hn freeActive among fs found
  have values : ∀ f ∈ fs, f.bindings.AllValues IsSelfFree := fun f hf _ _ e =>
    stores.selfFree _ ((bound f hf).2 e)
  have templates : ∀ f ∈ fs, ∀ a ∈ f.trigger.additions, IsSelfFree a := fun f hf =>
    freeActive f.trigger (bound f hf).1 .addition
  obtain ⟨removals, additions⟩ :=
    Changes.mem_additions_ofFirings additive templates values caused
  refine ⟨removals, fun c hc => ?_⟩
  obtain ⟨f, hf, a, ha, rfl⟩ := (additions c).mp hc
  exact (templates f hf a ha).instantiate (values f hf)

/-- What the start of a round leaves to be done. -/
structure Prepared (o : Opening) : Prop where
  /-- The active triggers are of clean concepts without `&`. -/
  active : ∀ trigger ∈ o.active, trigger.IsFree
  /-- So are the components that are still to be stored. -/
  components : ∀ c ∈ o.components, IsSelfFree c
  /-- The new triggers are of clean concepts. -/
  triggers : Trigger.AreClean o.newTriggers
  /-- The components are what they state. -/
  stated : ∀ d, Trigger.IsStated o.newTriggers d ↔ d.toConcept ∈ o.components
  /-- What is still to be added are clean concepts without `&`. -/
  additions : ∀ c ∈ o.changes.additions, IsSelfFree c
  /-- Nothing is removed. -/
  removals : o.changes.removals = []

include stores free in
/-- The start of a round stores no component, unless it stands inside a fact. -/
theorem exists_prepared (freeActive : ∀ trigger ∈ active, trigger.IsFree) {result : Option Opening}
    (ok : base.openRound active cs w = (.ok result, w'))
    (fits : ∀ o, result = some o → ∀ c ∈ o.facts, Key.FitsMemory c.key)
    (additive : ∀ o, result = some o → ∀ f ∈ o.firings, f.trigger.removals = []) :
    ∃ after, Stores w' after ∧ Grew facts after (fun _ => False) ∧
      ∀ o, result = some o → Prepared o := by
  have clean : ∀ c ∈ cs, c.Clean := fun c hc => (free c hc).clean
  have given : ∀ c ∈ (Separation.ofConcepts cs).facts, IsSelfFree c := fun c hc =>
    free c (List.mem_filter.mp hc).1
  have noComponent : ∀ d : Component,
      False ↔ d.toConcept ∈ (Separation.ofConcepts cs).facts := fun d =>
    ⟨False.elim, Separation.not_mem_facts⟩
  obtain ⟨new, -, added, ⟨rfl, -, rfl⟩ | ⟨firings, changes, found, caused, rfl⟩⟩ :=
    exists_of_openRound rfl ok
  · obtain ⟨stores', grew⟩ := stores.add given added (by simp)
    exact ⟨_, stores', grew.congr noComponent, by simp⟩
  · obtain ⟨stores', grew⟩ := stores.add given added (fits _ rfl)
    have freeAll : ∀ trigger ∈ active ++ (Separation.ofConcepts cs).triggers,
        trigger.IsFree := by
      intro trigger ht
      rcases List.mem_append.mp ht with ht | ht
      · exact freeActive trigger ht
      · exact Trigger.isFree_of_isStated
          (fun d hd => free _ ((Separation.isStated_triggers_iff clean).mp hd)) trigger ht
    obtain ⟨removals, additions⟩ := stores'.changes_of_firings freeAll
      (fun c hc => Finset.mem_union_right _ (List.mem_toFinset.mpr hc))
      (fun trigger ht => List.mem_append_right _ ht) found caused (additive _ rfl)
    refine ⟨_, stores', grew.congr noComponent, ?_⟩
    rintro _ ⟨rfl⟩
    refine ⟨freeAll, fun c hc => free c (List.mem_filter.mp hc).1,
      Separation.areClean_triggers clean, fun d => ?_, additions, removals⟩
    rw [Separation.isStated_triggers_iff clean, Separation.mem_components_iff]

include stores in
/-- The end of a round stores the components of the triggers that it reports. -/
theorem exists_stores_of_closeRound {notifier : Notifier} {o : Opening} {round : Round}
    (prepared : Prepared o) (ok : base.closeRound notifier o w = (.ok round, w'))
    (fits : ∀ c ∈ round.added, Key.FitsMemory c.key) :
    ∃ after, Stores w' after ∧ Grew facts after (Trigger.IsStated o.newTriggers) := by
  obtain ⟨new, v, same, added, all⟩ := exists_of_closeRound_of_removals ok prepared.removals
  have stores : Stores v facts := ⟨same ▸ stores.indexed, stores.selfFree⟩
  obtain ⟨stores', grew⟩ := stores.add prepared.components added fun c hc =>
    fits c (all ▸ List.mem_append_right _ hc)
  exact ⟨_, stores', grew.congr prepared.stated⟩

end Round

/-! ## All rounds -/

/-- Rounds in which no trigger fires that removes facts, and whose facts memory holds. -/
structure IsAdditive (rounds : List Round) : Prop where
  /-- No trigger that fires removes facts. -/
  removals : ∀ round ∈ rounds, ∀ f ∈ round.firings, f.trigger.removals = []
  /-- Memory holds the new facts. -/
  fits : ∀ round ∈ rounds, ∀ c ∈ round.added, Key.FitsMemory c.key

theorem isAdditive_append {rounds more : List Round} :
    IsAdditive (rounds ++ more) ↔ IsAdditive rounds ∧ IsAdditive more := by
  constructor
  · intro h
    exact ⟨⟨fun r hr => h.removals r (by simp [hr]), fun r hr => h.fits r (by simp [hr])⟩,
      ⟨fun r hr => h.removals r (by simp [hr]), fun r hr => h.fits r (by simp [hr])⟩⟩
  · rintro ⟨h, h'⟩
    exact ⟨fun r hr => (List.mem_append.mp hr).elim (h.removals r) (h'.removals r),
      fun r hr => (List.mem_append.mp hr).elim (h.fits r) (h'.fits r)⟩

instance (rounds : List Round) : Decidable (IsAdditive rounds) :=
  decidable_of_iff
    ((∀ round ∈ rounds, ∀ f ∈ round.firings, f.trigger.removals = []) ∧
      ∀ round ∈ rounds, ∀ c ∈ round.added, Key.FitsMemory c.key)
    ⟨fun h => ⟨h.1, h.2⟩, fun h => ⟨h.1, h.2⟩⟩

/-- A new trigger of some round has a component. -/
def Reported (rounds : List Round) (d : Component) : Prop :=
  ∃ round ∈ rounds, Trigger.IsStated round.newTriggers d

/-- Rounds that report triggers of clean concepts, and store what they report, and otherwise no
components but those inside facts. -/
structure RanOver (before after : Finset Concept) (rounds : List Round) : Prop where
  /-- The facts grow by what is reported. -/
  grew : Grew before after (Reported rounds)
  /-- What is reported are triggers of clean concepts. -/
  triggers : ∀ round ∈ rounds, Trigger.AreClean round.newTriggers

namespace RanOver

variable {before between after : Finset Concept} {rounds later : List Round}

theorem nil (facts : Finset Concept) : RanOver facts facts [] :=
  ⟨(Grew.refl facts).congr (by simp [Reported]), by simp⟩

theorem append (h : RanOver before between rounds) (h' : RanOver between after later) :
    RanOver before after (rounds ++ later) where
  grew := (h.grew.append h'.grew).congr fun d => by simp [Reported, or_and_right, exists_or]
  triggers round hr := (List.mem_append.mp hr).elim (h.triggers round) (h'.triggers round)

end RanOver

variable {notifier : Notifier}

/-- The rounds of an addition store what they report, and otherwise no components but those inside
facts. -/
theorem Addition.exists_ranOver {cs : List Concept} {w w' : SpaceState} {rounds : List Round}
    (run : Addition base notifier active cs w rounds w') (stores : Stores w facts)
    (free : ∀ c ∈ cs, IsSelfFree c) (freeActive : ∀ trigger ∈ active, trigger.IsFree)
    (additive : IsAdditive rounds) : ∃ after, Stores w' after ∧ RanOver facts after rounds := by
  -- The induction is on the rounds: the later ones of a round start with what its firings add, and
  -- its components are stored after them.
  induction run generalizing facts with
  | nil active w => exact ⟨facts, stores, .nil facts⟩
  | last opened =>
    obtain ⟨after, stores', grew, -⟩ :=
      exists_prepared stores free freeActive opened (by simp) (by simp)
    exact ⟨after, stores', grew.congr (by simp [Reported, Trigger.IsStated]),
      by simpa using Trigger.AreClean.nil⟩
  | @around active cs w v u w' o round later opened inner closed ih =>
    obtain ⟨own, rest⟩ := isAdditive_append.mp (show IsAdditive ([round] ++ later) from additive)
    obtain ⟨firings, triggers, facts_subset⟩ : round.firings = o.firings ∧
        round.newTriggers = o.newTriggers ∧ o.facts ⊆ round.added := by
      obtain ⟨removed, new, -, -, -, rfl⟩ := exists_of_closeRound closed
      exact ⟨rfl, rfl, List.subset_append_left _ _⟩
    have fits := own.fits round (by simp)
    obtain ⟨between, stores₁, grew₁, prepared⟩ :=
      exists_prepared stores free freeActive opened
        (by rintro _ ⟨rfl⟩ c hc; exact fits c (facts_subset hc))
        (by rintro _ ⟨rfl⟩; exact firings ▸ own.removals round (by simp))
    have prepared := prepared o rfl
    obtain ⟨_, stores₂, ranOver⟩ := ih stores₁ prepared.additions prepared.active rest
    obtain ⟨after, stores₃, grew₃⟩ := exists_stores_of_closeRound stores₂ prepared closed fits
    refine ⟨after, stores₃, ((grew₁.append ranOver.grew).append grew₃).congr fun d => ?_, ?_⟩
    · simp [Reported, triggers, or_comm]
    · simpa [triggers] using ⟨prepared.triggers, ranOver.triggers⟩

/-- An addition under the stored triggers stores what its rounds report, and otherwise no components
but those inside facts. -/
theorem exists_ranOver_addAll {cs : List Concept} {w w' : SpaceState} {rounds : List Round}
    (ok : base.addAll notifier cs w = (.ok rounds, w')) (stores : Stores w facts)
    (free : ∀ c ∈ cs, IsSelfFree c) (additive : IsAdditive rounds) :
    ∃ after, Stores w' after ∧ RanOver facts after rounds := by
  obtain ⟨found, loaded, -, stated⟩ := stores.indexed.exists_triggers_eq base
  rw [addAll_eq_addRounds loaded] at ok
  have freeActive : ∀ trigger ∈ found, trigger.IsFree :=
    Trigger.isFree_of_isStated fun d hd => stores.selfFree _ ((stated d).mp hd)
  exact (addition_of_addRounds ok).exists_ranOver stores free freeActive additive

/-! ## Facts that define no trigger -/

theorem firings_nil (base : FactBase) (t : Table) (new : List Concept) :
    base.firings t [] new [] = .ok [] := by
  have found : new.mapM (base.firingsOfFact t []) = .ok (new.map fun _ => []) :=
    Sequence.mapM_eq_ok fun c _ => by
      rw [firingsOfFact]
      split <;> rfl
  rw [firings, found]
  change Except.ok (Sequence.distinctBy Firing.identity ((new.map fun _ => []).flatten ++ [])) = _
  rw [List.append_nil, List.flatten_eq_nil_iff.mpr (by simp)]
  rfl

/-- Without active triggers, concepts that define no trigger are stored in one round, which reports
none. -/
theorem exists_addRounds_eq_of_noComponent {w : SpaceState} (h : Indexed w.store.table facts)
    {cs : List Concept} (storable : ∀ c ∈ cs, Storable c)
    (noComponent : ∀ c ∈ cs, Component.ofConcept? c = none) :
    ∃ rounds w' after, base.addRounds notifier [] cs w = (.ok rounds, w') ∧
      IsAdditive rounds ∧ (∀ round ∈ rounds, round.newTriggers = []) ∧
        Indexed w'.store.table after ∧ ∀ c ∈ cs, c ∈ after := by
  have clean : ∀ c ∈ cs, c.Clean := fun c hc => (storable c hc).clean
  obtain ⟨new, v, added⟩ : ∃ new v, Run.changeTable (base.add cs) w = (.ok new, v) :=
    ⟨_, _, Prod.ext (h.add clean base).1 rfl⟩
  have fits : ∀ c ∈ new, Key.FitsMemory c.key := by
    obtain rfl := Except.ok.inj ((h.add clean base).1.symm.trans (Run.eq_of_changeTable added).1)
    intro c hc
    obtain ⟨-, d, hd, rfl | inside⟩ := (h.mem_newFacts clean).mp hc
    · exact (storable c hd).fits
    · exact ((storable d hd).of_mem_inside inside).fits
  obtain ⟨indexed, -, given⟩ := indexed_of_changeTable h clean added fits
  let o : Opening := ⟨[], new, [], [], [], {}⟩
  have opened : base.openRound [] cs w = (.ok (if new.isEmpty then none else some o), v) := by
    rw [openRound, separation_of_forall noComponent]
    simp only [clash?, List.find?_nil, List.append_nil, Run.bind_apply, added, List.isEmpty_nil,
      Bool.and_true]
    split
    · rfl
    · simp only [Run.bind_apply, Run.ask, firings_nil]
      rfl
  let v' : SpaceState := { v with journal := notifier.deliver v.journal [] }
  have closed : base.closeRound notifier o v = (.ok ⟨new, [], [], {}, 0⟩, v') := by
    simp only [closeRound, Run.bind_apply, o, Run.send, changeTable_add_nil]
    simp [retract]
    rfl
  cases cs with
  | nil =>
    exact ⟨[], w, facts, (ComesTo.nil [] w).addRounds_eq, ⟨by simp, by simp⟩, by simp, h, by simp⟩
  | cons c cs =>
    by_cases none : new.isEmpty
    · rw [if_pos none] at opened
      exact ⟨[{}], v, _, (ComesTo.last opened).addRounds_eq, ⟨by simp, by simp⟩, by simp, indexed,
        given⟩
    · rw [if_neg none] at opened
      exact ⟨[⟨new, [], [], {}, 0⟩], v', _,
        (ComesTo.around opened (.nil [] v) (concludeRound_of_ok [] closed)).addRounds_eq,
        ⟨by simp, by simpa using fits⟩, by simp, indexed, given⟩

/-- While no fact defines a trigger, none is found. -/
theorem Indexed.triggers_eq_nil (h : Indexed t facts)
    (noTrigger : ∀ d : Component, d.toConcept ∉ facts) (base : FactBase) : base.triggers t = .ok [] := by
  obtain ⟨found, loaded, areClean, stated⟩ := h.exists_triggers_eq base
  obtain rfl : found = [] := by
    refine List.eq_nil_iff_forall_not_mem.mpr fun trigger ht => ?_
    obtain ⟨role, arguments⟩ := areClean.defined trigger ht
    obtain ⟨a, ha⟩ := List.exists_mem_of_ne_nil _ arguments
    exact noTrigger _ ((stated ⟨trigger.name, role, a⟩).mp ⟨trigger, ht, rfl, ha⟩)
  exact loaded

/-- In a store without data, an addition under the stored triggers is one under none. -/
theorem addAll_create (base : FactBase) (notifier : Notifier) (cs : List Concept)
    (backend : Backend) (journal : List Delivery) :
    base.addAll notifier cs ⟨Store.create backend, journal⟩ =
      base.addRounds notifier [] cs ⟨Store.create backend, journal⟩ :=
  addAll_eq_addRounds (Indexed.empty.triggers_eq_nil (by simp) base)

/-- In a store without data, concepts that define no trigger are stored without reporting any. -/
theorem exists_addAll_create (base : FactBase) (notifier : Notifier) {cs : List Concept}
    (storable : ∀ c ∈ cs, Storable c) (noComponent : ∀ c ∈ cs, Component.ofConcept? c = none)
    (backend : Backend) (journal : List Delivery) : ∃ rounds w' after,
      base.addAll notifier cs ⟨Store.create backend, journal⟩ = (.ok rounds, w') ∧
        IsAdditive rounds ∧ (∀ round ∈ rounds, round.newTriggers = []) ∧
          Indexed w'.store.table after ∧ ∀ c ∈ cs, c ∈ after := by
  rw [addAll_create]
  exact exists_addRounds_eq_of_noComponent .empty storable noComponent

end FactBase

end ConceptSpace
