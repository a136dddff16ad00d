import ConceptSpace.Proofs.Source.Interpolation
import ConceptSpace.Proofs.Trigger.Growth
import ConceptSpace.Space.Basic

/-!
# The triggers of a space

The triggers of a space are read from its facts, apart from the rounds that reported them. After any
additions of source texts that succeed, they are the reported triggers together with the components
that stand inside a fact (`addSources_triggers`): a definition inside a fact is reported by no
round, but it is a fact, and so defines a trigger (`noteRun_triggers`).
-/

namespace ConceptSpace

open ConceptSpace.Concept (IsSelfFree)

theorem eq_of_liftSource {α : Type} {x : Except Source.Error α} {a : α}
    (h : liftSource x = .ok a) : x = .ok a := by
  cases x with
  | error => exact absurd h nofun
  | ok b => exact congrArg _ (Except.ok.inj h)

namespace Space

open Storage FactBase

variable {s : Space} {w w' : SpaceState}

/-! ## One addition -/

/-- The fact that a concept states is the concept or a part of it. -/
theorem isSelfFree_statedFact {c : Concept} (h : IsSelfFree c) : IsSelfFree (statedFact c) := by
  unfold statedFact
  split
  case h_1 target text attached =>
    unfold attachment? at attached
    split at attached
    case h_1 target' directive payload parts =>
      split at attached
      case isTrue =>
        obtain ⟨rfl, -⟩ := Prod.mk.inj (Option.some.inj attached)
        exact h.of_mem_parts (by simp [parts])
      case isFalse => simp at attached
    case h_2 => simp at attached
  case h_2 => exact h

/-- Attaching texts leaves the table alone. -/
theorem table_of_attachAll {texts : List (Concept × String)}
    (ok : s.attachAll texts w = (.ok (), w')) : w'.store.table = w.store.table := by
  induction texts generalizing w with
  | nil =>
    obtain ⟨-, rfl⟩ := Run.eq_of_pure ok
    rfl
  | cons entry texts ih =>
    rw [attachAll] at ok
    obtain ⟨_, v, attached, ok⟩ := Run.exists_of_bind ok
    rw [ih ok]
    obtain ⟨-, rfl⟩ := Prod.mk.inj attached
    change (ite _ _ _ : Except Error Bool × Store).2.table = _
    split <;> rfl

/-- When source texts have been read, what they state is added, then their texts are attached. -/
theorem addSource_of_interpolate {sources : List String} {values : Interpolations}
    {stated : List Concept} (read : Source.interpolate values.values sources = .ok stated)
    (w : SpaceState) : s.addSource sources values w = (do
      let rounds ← s.base.addAll s.notifier (stated.map statedFact)
      s.attachAll (stated.filterMap attachment?)
      return rounds : Run (List Round)) w := by
  have asked : Run.ask (fun _ => liftSource (Source.interpolate values.values sources)) w =
      (.ok stated, w) := by rw [Run.ask, read]; rfl
  rw [addSource, Run.bind_of_ok asked]
  rfl

/-- Source texts that attach no text just add what they state. -/
theorem addSource_of_noText {sources : List String} {values : Interpolations} {cs : List Concept}
    (read : Source.interpolate values.values sources = .ok cs)
    (noText : ∀ c ∈ cs, attachment? c = none) (w : SpaceState) :
    s.addSource sources values w = s.base.addAll s.notifier cs w := by
  have stated : cs.map statedFact = cs := by
    refine (List.map_congr_left fun c hc => ?_).trans (List.map_id cs)
    rw [statedFact, noText c hc]
    rfl
  have texts : cs.filterMap attachment? = [] := List.filterMap_eq_nil_iff.mpr noText
  rw [addSource_of_interpolate read, stated, texts]
  simp only [attachAll, Run.bind_apply]
  rcases s.base.addAll s.notifier cs w with ⟨_ | _, _⟩ <;> rfl

/-- Source texts with plain atoms, and values that are clean and have no `&`. -/
structure IsPlainInput (input : List String × Interpolations) : Prop where
  /-- The atoms of the texts are plain. -/
  atoms : Source.HasPlainAtoms ("\n".intercalate input.1)
  /-- The values are clean and have no `&`. -/
  values : ∀ name, ∀ value ∈ input.2.values name, IsSelfFree value

theorem exists_ranOver_addSource {input : List String × Interpolations} {rounds : List Round}
    {facts : Finset Concept} (ok : s.addSource input.1 input.2 w = (.ok rounds, w'))
    (stores : Stores w facts) (plain : IsPlainInput input) (additive : IsAdditive rounds) :
    ∃ after, Stores w' after ∧ RanOver facts after rounds := by
  rw [addSource] at ok
  obtain ⟨stated, v, asked, ok⟩ := Run.exists_of_bind ok
  obtain ⟨read, rfl⟩ := Run.eq_of_ask asked
  obtain ⟨found, v, added, ok⟩ := Run.exists_of_bind ok
  obtain ⟨_, v', attached, ok⟩ := Run.exists_of_bind ok
  obtain ⟨rfl, rfl⟩ := Run.eq_of_pure ok
  have free : ∀ c ∈ stated.map statedFact, IsSelfFree c := by
    intro c hc
    obtain ⟨d, hd, rfl⟩ := List.mem_map.mp hc
    exact isSelfFree_statedFact
      (Source.isSelfFree_of_interpolate plain.atoms plain.values (eq_of_liftSource read) d hd)
  obtain ⟨after, stores', ranOver⟩ := exists_ranOver_addAll added stores free additive
  exact ⟨after, ⟨table_of_attachAll attached ▸ stores'.indexed, stores'.selfFree⟩, ranOver⟩

/-! ## A series of additions -/

/-- Adds what several lists of source texts state, one after the other, each with its own values. -/
def addSources (s : Space) : List (List String × Interpolations) → Run (List Round)
  | [] => return []
  | (sources, values) :: more => do
    let rounds ← s.addSource sources values
    let later ← addSources s more
    return rounds ++ later

theorem addSources_singleton (input : List String × Interpolations) (w : SpaceState) :
    s.addSources [input] w = s.addSource input.1 input.2 w := by
  rw [addSources, Run.bind_apply]
  rcases s.addSource input.1 input.2 w with ⟨_ | rounds, v⟩
  · rfl
  · change (Except.ok (rounds ++ []), v) = _
    rw [List.append_nil]

theorem exists_ranOver_addSources {inputs : List (List String × Interpolations)}
    {rounds : List Round} {facts : Finset Concept} (ok : s.addSources inputs w = (.ok rounds, w'))
    (stores : Stores w facts) (plain : ∀ input ∈ inputs, IsPlainInput input)
    (additive : IsAdditive rounds) :
    ∃ after, Stores w' after ∧ RanOver facts after rounds := by
  induction inputs generalizing w facts rounds with
  | nil =>
    obtain ⟨rfl, rfl⟩ := Run.eq_of_pure ok
    exact ⟨facts, stores, .nil facts⟩
  | cons input inputs ih =>
    rw [addSources] at ok
    obtain ⟨first, v, ran, ok⟩ := Run.exists_of_bind ok
    obtain ⟨later, v', series, ok⟩ := Run.exists_of_bind ok
    obtain ⟨rfl, rfl⟩ := Run.eq_of_pure ok
    obtain ⟨own, rest⟩ := isAdditive_append.mp additive
    obtain ⟨_, between, start⟩ := exists_ranOver_addSource ran stores (plain input (by simp)) own
    obtain ⟨after, stores', rest⟩ :=
      ih series between (fun input hi => plain input (by simp [hi])) rest
    exact ⟨after, stores', start.append rest⟩

/-! ## Main statement -/

/-- A component stands inside a fact. -/
def HoldsInside (t : Table) (d : Component) : Prop :=
  ∃ e, IsFact t e ∧ d.toConcept ∈ e.inside

/-- Whatever source texts with plain atoms were added to a space without data, in any number of
additions that all succeed and fire no trigger that removes facts: the triggers of the space have
different names, and just the conditions, templates and receivers that the rounds have reported for
these names, or that are stated by a component inside a fact. -/
theorem addSources_triggers {backend : Backend} {journal : List Delivery}
    {inputs : List (List String × Interpolations)} {rounds : List Round}
    (ok : s.addSources inputs ⟨Store.create backend, journal⟩ = (.ok rounds, w))
    (plain : ∀ input ∈ inputs, IsPlainInput input) (additive : IsAdditive rounds) :
    ∃ found, s.triggers w = (.ok found, w) ∧ (found.map (·.name)).Nodup ∧
      (∀ d, Trigger.IsStated found d ↔
        (∃ round ∈ rounds, Trigger.IsStated round.newTriggers d) ∨ HoldsInside w.store.table d) ∧
      ∀ name, name ∈ found.map (·.name) ↔
        (∃ round ∈ rounds, name ∈ round.newTriggers.map (·.name)) ∨
          ∃ d, HoldsInside w.store.table d ∧ d.trigger = name := by
  have start : Stores ⟨Store.create backend, journal⟩ ∅ := ⟨.empty, by simp⟩
  obtain ⟨facts, stores, grew, reported⟩ := exists_ranOver_addSources ok start plain additive
  obtain ⟨found, e, areClean, stated⟩ := stores.indexed.exists_triggers_eq s.base
  have nested : ∀ d, HoldsInside w.store.table d ↔ ∃ e ∈ facts, d.toConcept ∈ e.inside :=
    fun d => by simp only [HoldsInside, stores.indexed.isFact_iff]
  have isStated_iff : ∀ d, Trigger.IsStated found d ↔
      (∃ round ∈ rounds, Trigger.IsStated round.newTriggers d) ∨
        HoldsInside w.store.table d := by
    intro d
    rw [stated, nested]
    constructor
    · intro hd
      exact (grew.origin d hd).resolve_left (Finset.notMem_empty _)
    · rintro (hd | ⟨e, he, inside⟩)
      · exact grew.stored d hd
      · exact Concept.mem_of_mem_inside stores.indexed.closed he inside
  refine ⟨found, by rw [triggers, Run.ask, e], areClean.nodup, isStated_iff, fun name => ?_⟩
  have reported_iff : (∃ round ∈ rounds, name ∈ round.newTriggers.map (·.name)) ↔
      ∃ d, (∃ round ∈ rounds, Trigger.IsStated round.newTriggers d) ∧ d.trigger = name := by
    constructor
    · rintro ⟨round, hr, hn⟩
      obtain ⟨d, hd, rfl⟩ := (reported round hr).mem_names_iff.mp hn
      exact ⟨d, ⟨round, hr, hd⟩, rfl⟩
    · rintro ⟨d, ⟨round, hr, hd⟩, rfl⟩
      exact ⟨round, hr, (reported round hr).mem_names_iff.mpr ⟨d, hd, rfl⟩⟩
  simp only [areClean.mem_names_iff, isStated_iff, reported_iff, or_and_right, exists_or]

private def home : Space where
  id := "home"
  settings := {}

private def namedComponent : Component := ⟨.atom "t", .addition, .atom "z"⟩

/-- The value of the variable in a source text. -/
private def namedValues : Interpolations :=
  (∅ : Interpolations).insert "$n" [namedComponent.trigger]

/-- One source text that names its trigger by a variable. -/
private def namedInputs : List (List String × Interpolations) :=
  [(["$n [@adds z]"], namedValues)]

/-- The addition of this text to a space without data. -/
private def namedRun : Except Error (List Round) × SpaceState :=
  home.addSources namedInputs ⟨Store.create .memory, []⟩

private theorem interpolate_namedInputs :
    Source.interpolate namedValues.values ["$n [@adds z]"] = .ok [namedComponent.toConcept] :=
  Sequence.eq_ok_of_toOption (by decide +kernel)

theorem namedRun_triggers : (∀ input ∈ namedInputs, IsPlainInput input) ∧
    ∃ rounds w found, namedRun = (.ok rounds, w) ∧ IsAdditive rounds ∧
      home.triggers w = (.ok found, w) ∧ Trigger.IsStated found namedComponent := by
  have plain : ∀ input ∈ namedInputs, IsPlainInput input := by
    simp only [namedInputs, List.mem_singleton, forall_eq]
    refine ⟨by decide +kernel, fun name value hm => ?_⟩
    by_cases same : name = "$n"
    · subst same
      obtain rfl : value = .atom "t" := by
        simpa [namedValues, namedComponent, Interpolations.values] using hm
      exact ⟨by decide, by decide⟩
    · simp [namedValues, Interpolations.values, Std.ExtTreeMap.getD_insert, Ne.symm same] at hm
  have checked : (FactBase.roundsOver 1 [] [namedComponent.toConcept] []).toOption.any (fun r =>
      decide (IsAdditive r.1) && r.1.any fun round => round.newTriggers.any fun t =>
        t.name == .atom "t" && t.additions.contains (.atom "z")) = true := by decide
  obtain ⟨rounds, _, w, run, -, checked⟩ :=
    (FactBase.Shows.create .memory []).exists_comesTo_of_any 1 checked home.base home.notifier
  have ok : namedRun = (.ok rounds, w) := by
    rw [namedRun, namedInputs, addSources_singleton,
      addSource_of_noText interpolate_namedInputs (by decide), addAll_create,
      run.addRounds_eq]
  simp only [Bool.and_eq_true, decide_eq_true_eq, List.any_eq_true, List.contains_iff_mem,
    beq_iff_eq] at checked
  obtain ⟨additive, round, hr, t, ht, name, argument⟩ := checked
  obtain ⟨found, e, -, stated, -⟩ := addSources_triggers ok plain additive
  exact ⟨plain, rounds, w, found, ok, additive, e,
    (stated _).mpr (.inl ⟨round, hr, t, ht, name, argument⟩)⟩

/-- A fact with a definition inside. -/
private def note : Concept :=
  .compound [.atom "note", namedComponent.toConcept]

/-- One source text that states this fact. -/
private def noteInputs : List (List String × Interpolations) :=
  [(["note [t [@adds z]]"], ∅)]

private theorem interpolate_noteInputs :
    Source.interpolate (∅ : Interpolations).values ["note [t [@adds z]]"] = .ok [note] :=
  Sequence.eq_ok_of_toOption (by decide +kernel)

/-- The definition inside the fact defines a trigger that no round has reported. -/
theorem noteRun_triggers : (∀ input ∈ noteInputs, IsPlainInput input) ∧
    ∃ rounds w found, home.addSources noteInputs ⟨Store.create .memory, []⟩ = (.ok rounds, w) ∧
      IsAdditive rounds ∧ (∀ round ∈ rounds, round.newTriggers = []) ∧
      home.triggers w = (.ok found, w) ∧ Trigger.IsStated found namedComponent := by
  have plain : ∀ input ∈ noteInputs, IsPlainInput input := by
    simp only [noteInputs, List.mem_singleton, forall_eq]
    exact ⟨by decide +kernel, fun name value hm => by simp [Interpolations.values] at hm⟩
  have storable : ∀ c ∈ [note], Storable c := by
    simp only [List.mem_singleton, forall_eq]
    exact ⟨by decide, by decide⟩
  obtain ⟨rounds, w, facts, added, additive, none, indexed, given⟩ :=
    exists_addAll_create home.base home.notifier storable (by decide) .memory []
  have ran : home.addSources noteInputs ⟨Store.create .memory, []⟩ = (.ok rounds, w) := by
    rw [noteInputs, addSources_singleton,
      addSource_of_noText interpolate_noteInputs (by decide), added]
  obtain ⟨found, e, -, isStated_iff⟩ := indexed.exists_triggers_eq home.base
  have inside : namedComponent.toConcept ∈ note.inside :=
    Concept.mem_inside_of_mem_parts (.inl rfl) (by simp [note, Concept.parts])
  refine ⟨plain, rounds, w, found, ran, additive, none, by rw [triggers, Run.ask, e], ?_⟩
  exact (isStated_iff _).mpr
    (Concept.mem_of_mem_inside indexed.closed (given note (by simp)) inside)

end Space

end ConceptSpace
