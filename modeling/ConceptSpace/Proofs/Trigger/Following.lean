import ConceptSpace.Proofs.Facts.Counting
import ConceptSpace.Proofs.Trigger.Attempts

/-!
# Rounds followed on facts

Rules without variables are looked up, so that their answers can be told from which facts are
stored. If no other rules are asked for, a round that removes nothing is the same for all tables
with the same facts, whatever else they hold, as long as their counters can be read
(`Shows.exists_openRound_eq`, `Shows.exists_closeRound_eq`). So an addition can be followed from
round to round on a list of the facts, and the rounds that are found are those that it has
(`Shows.exists_comesTo`).
-/

namespace ConceptSpace.FactBase

open Storage

variable {base : FactBase} {t : Table} {facts cs : List Concept}

/-! ## Counters that can be read -/

/-- Whether every counter can be read. -/
def Counted (t : Table) : Prop :=
  ∀ m : Concept, ∃ n, storedCount t[Key.maskCount m]? = .ok n

namespace Counted

theorem empty : Counted ∅ := fun _ => ⟨0, by simp [storedCount]⟩

theorem mark (h : Counted t) {keys : List String} (others : ∀ m, Key.maskCount m ∉ keys) :
    Counted (base.mark t keys) := by
  intro m
  rw [getElem?_mark, if_neg (others m)]
  exact h m

theorem putAll (h : Counted t) {entries : List (String × Value)}
    (counts : ∀ e ∈ entries, ∃ n, e.2 = Value.ofCount n) : Counted (t.putAll entries) := by
  induction entries generalizing t with
  | nil => exact h
  | cons e entries ih =>
    obtain ⟨key, value⟩ := e
    obtain ⟨n, rfl⟩ := counts (key, value) (by simp)
    refine ih (fun m => ?_) fun e he => counts e (by simp [he])
    rw [Table.getElem?_insert]
    split
    · exact ⟨n, Value.count?_ofCount n⟩
    · exact h m

/-- If the counters can be read, adding facts succeeds, and they still can be read. -/
theorem add (h : Counted t) (base : FactBase) (cs : List Concept) :
    (base.add cs t).1 = .ok (base.newFacts t cs) ∧ Counted (base.add cs t).2 := by
  cases new : base.newFacts t cs with
  | nil => simp [FactBase.add, new, h]
  | cons c more =>
    have others : ∀ m, Key.maskCount m ∉ (c :: more).flatMap marks := by
      intro m hm
      obtain ⟨d, -, hk⟩ := List.mem_flatMap.mp hm
      exact ne_maskCount_of_mem_marks hk m rfl
    simp only [mem_flatMap_marks_iff, not_or] at others
    have counted : Counted (base.mark (base.mark t ((c :: more).map Key.fact))
        (((c :: more).flatMap indexEntries).map (·.2))) :=
      (h.mark fun m => (others m).1).mark fun m => (others m).2.1
    unfold FactBase.add
    simp only [new, List.isEmpty_cons, Bool.false_eq_true, if_false]
    generalize base.mark (base.mark t _) _ = indexed at counted ⊢
    have read : ∀ e ∈ tally (((c :: more).flatMap indexEntries).map (·.1)),
        storedCount indexed[e.1]? = .ok ((storedCount indexed[e.1]?).toOption.getD 0) := by
      rintro ⟨key, n⟩ he
      have hk := (mem_tally_iff.mp he).1
      rw [map_fst_flatMap_indexEntries] at hk
      obtain ⟨d, -, hk⟩ := List.mem_flatMap.mp hk
      obtain ⟨m, -, rfl⟩ := exists_of_mem_counterKeys hk
      obtain ⟨current, found⟩ := counted m
      simp only [found]
      rfl
    rw [raised_eq_ok (fun key => (storedCount indexed[key]?).toOption.getD 0) read]
    refine ⟨rfl, Counted.mark ?_ fun m => (others m).2.2⟩
    rw [Table.foldl_putAll_batches]
    refine counted.putAll fun e he => ?_
    obtain ⟨e, -, rfl⟩ := List.mem_map.mp he
    exact ⟨_, rfl⟩

end Counted

/-! ## Tables that hold some facts -/

/-- A table that holds some facts, and counters that can be read. -/
structure Shows (t : Table) (facts : List Concept) : Prop where
  /-- The counters can be read. -/
  counted : Counted t
  /-- The stored facts are those that are given. -/
  keys : factKeys t = (facts.map Key.fact).toFinset

/-- The concepts that have the key of none of the facts. -/
def missingOver (facts cs : List Concept) : List Concept :=
  cs.filter fun c => !facts.any (·.same c)

/-- The facts that adding some concepts makes new, as by `newFacts`. -/
def newOver (facts cs : List Concept) : List Concept :=
  let roots := missingOver facts (Concept.distinct cs)
  if roots.isEmpty then []
  else Concept.distinct (roots ++ missingOver facts (Concept.deepParts roots))

/-- The answers to rules, as by `lookUp`. -/
def lookUpOver (facts rules : List Concept) : Except Error (List Bindings) :=
  let ground := Concept.distinct rules
  if ground.any (·.isPattern) then .error gaveUp
  else if missingOver facts ground ≠ [] then .ok []
  else .ok [∅]

namespace Shows

theorem empty : Shows ∅ [] where
  counted := .empty
  keys := by
    ext key
    simp [mem_factKeys]

theorem create (backend : Backend) (journal : List Delivery) :
    Shows (SpaceState.mk (Store.create backend) journal).store.table [] :=
  .empty

theorem contains_eq (h : Shows t facts) (c : Concept) : contains t c = facts.any (·.same c) := by
  have stored : contains t c = true ↔ Key.fact c ∈ facts.map Key.fact := by
    rw [contains, Table.contains_eq_isSome, ← List.mem_toFinset, ← h.keys, mem_factKeys]
    exact (and_iff_left (isFactKey_fact c)).symm
  rw [Bool.eq_iff_iff, stored, List.mem_map, List.any_eq_true]
  refine exists_congr fun d => and_congr_right fun _ => ⟨fun same => ?_, fun same => ?_⟩
  · exact beq_iff_eq.mpr (Key.fact_inj same)
  · rw [Key.fact, Key.fact, beq_iff_eq.mp same]

theorem missing_eq (h : Shows t facts) (base : FactBase) (cs : List Concept) :
    base.missing t cs = missingOver facts cs := by
  rw [missing, select_eq_filter, missingOver]
  simp only [h.contains_eq, beq_false]

theorem newFacts_eq (h : Shows t facts) (base : FactBase) (cs : List Concept) :
    base.newFacts t cs = newOver facts cs := by
  simp only [newFacts, newOver, h.missing_eq]

theorem lookUp_eq (h : Shows t facts) (base : FactBase) : base.lookUp t = lookUpOver facts := by
  funext rules
  have missing (cs : List Concept) :
      (base.existing t cs).length < cs.length ↔ missingOver facts cs ≠ [] := by
    rw [existing, select_eq_filter, List.length_filter_lt_length_iff_exists, missingOver,
      Ne, List.filter_eq_nil_iff]
    simp [h.contains_eq]
  simp only [lookUp, lookUpOver, missing]

/-- Adding facts to a table that shows its own gives one that shows the new ones, too. -/
theorem add (h : Shows t facts) (base : FactBase) (cs : List Concept) :
    (base.add cs t).1 = .ok (newOver facts cs) ∧
      Shows (base.add cs t).2 (facts ++ newOver facts cs) := by
  obtain ⟨ok, counted⟩ := h.counted.add base cs
  rw [h.newFacts_eq] at ok
  refine ⟨ok, counted, ?_⟩
  rw [(factKeys_add ok).2, h.keys, List.map_append, List.toFinset_append]

end Shows

/-! ## Rounds -/

/-- The start of a round over some facts, as by `openRound`, if it asks only for rules without
variables. -/
def openingOver (active : List Trigger) (cs facts : List Concept) :
    Except Error (Option Opening) := do
  let given := Separation.ofConcepts cs
  match clash? active given.triggers with
  | some trigger => throw (.duplicateTrigger trigger.name.key)
  | none =>
    let active := active ++ given.triggers
    let new := newOver facts given.facts
    if new.isEmpty && given.triggers.isEmpty then return none
    let firings ← firingsBy (lookUpOver (facts ++ new)) active new given.triggers
    let changes ← Changes.ofFirings firings
    return some {
      active, facts := new, newTriggers := given.triggers, components := given.components, firings,
      changes }

/-- What is reported of a round that removes nothing, if its components are added to some facts. -/
def reportOver (o : Opening) (facts : List Concept) : Round where
  added := o.facts ++ newOver facts o.components
  newTriggers := o.newTriggers
  firings := o.firings
  changes := o.changes

/-- The rounds of an addition over some facts, as by `rounds`, and the facts that they leave. There
are not more of them than a limit, and none of them removes facts. -/
def roundsOver : Nat → List Trigger → List Concept → List Concept →
    Except Error (List Round × List Concept)
  | _, _, [], facts => return ([], facts)
  | 0, _, _, _ => throw gaveUp
  | limit + 1, active, c :: cs, facts => do
    match ← openingOver active (c :: cs) facts with
    | none => return ([{}], facts)
    | some o =>
      if !o.changes.removals.isEmpty then throw gaveUp
      let (later, facts) ← roundsOver limit o.active o.changes.additions (facts ++ o.facts)
      return (reportOver o facts :: later, facts ++ newOver facts o.components)

section Rounds

variable {notifier : Notifier} {active : List Trigger} {w : SpaceState}

/-- A round that is started over the facts starts like this for all tables that show them. -/
theorem Shows.exists_openRound_eq (h : Shows w.store.table facts) {result : Option Opening}
    (started : openingOver active cs facts = .ok result) (base : FactBase) :
    ∃ v, base.openRound active cs w = (.ok result, v) ∧
      Shows v.store.table (facts ++ result.elim [] (·.facts)) := by
  obtain ⟨ok, shows⟩ := h.add base (Separation.ofConcepts cs).facts
  obtain ⟨v, added, table⟩ := Run.exists_changeTable_eq ok
  rw [← table] at shows
  rw [openingOver] at started
  cases clash : clash? active (Separation.ofConcepts cs).triggers with
  | some trigger =>
    simp only [clash] at started
    cases started
  | none =>
    simp only [clash] at started
    rw [openRound]
    simp only [clash]
    rw [Run.bind_of_ok added]
    split at started
    case isTrue nothing =>
      obtain rfl := Except.ok.inj started
      obtain ⟨none, -⟩ := Bool.and_eq_true_iff.mp nothing
      rw [List.isEmpty_iff.mp none] at shows
      exact ⟨v, by rw [if_pos nothing]; rfl, shows⟩
    case isFalse some =>
      obtain ⟨firings, found, started⟩ := Sequence.exists_of_bind_eq_ok started
      obtain ⟨changes, caused, started⟩ := Sequence.exists_of_bind_eq_ok started
      obtain rfl := Except.ok.inj started
      rw [← shows.lookUp_eq base] at found
      have fired := (attempts_firingsBy (attempts_lookUp base v.store.table) _ _ _).eq_ok found
      rw [← firings_eq_firingsBy] at fired
      refine ⟨v, ?_, shows⟩
      rw [if_neg some, Run.bind_of_ok (Run.ask_of_ok fired), Run.bind_of_ok (Run.ask_of_ok caused)]
      rfl

/-- A round that removes nothing ends alike for all tables that show the facts. -/
theorem Shows.exists_closeRound_eq (h : Shows w.store.table facts) {o : Opening}
    (removals : o.changes.removals = []) (base : FactBase) (notifier : Notifier) :
    ∃ v, base.closeRound notifier o w = (.ok (reportOver o facts), v) ∧
      Shows v.store.table (facts ++ newOver facts o.components) := by
  obtain ⟨ok, shows⟩ := h.add base o.components
  obtain ⟨v, added, table⟩ := Run.exists_changeTable_eq
    (w := { w with journal := notifier.deliver w.journal o.changes.notifications }) ok
  refine ⟨v, ?_, table ▸ shows⟩
  have sent : Run.send notifier o.changes.notifications w =
      (.ok (), { w with journal := notifier.deliver w.journal o.changes.notifications }) := rfl
  rw [closeRound, Run.bind_of_ok sent, retract, removals]
  change (pure 0 >>= _ : Run Round) _ = _
  rw [pure_bind, Run.bind_of_ok added]
  rfl

/-- The rounds that are found over the facts are those of the addition for all tables that show
them. -/
theorem Shows.exists_comesTo (h : Shows w.store.table facts) {limit : Nat} {rounds : List Round}
    {left : List Concept} (found : roundsOver limit active cs facts = .ok (rounds, left))
    (base : FactBase) (notifier : Notifier) :
    ∃ v, ComesTo base notifier active cs w (.ok rounds) v ∧ Shows v.store.table left := by
  induction limit generalizing active cs facts w rounds left with
  | zero =>
    cases cs with
    | nil =>
      obtain ⟨rfl, rfl⟩ := Prod.mk.inj (Except.ok.inj found)
      exact ⟨w, .nil active w, h⟩
    | cons c cs => cases found
  | succ limit ih =>
    cases cs with
    | nil =>
      obtain ⟨rfl, rfl⟩ := Prod.mk.inj (Except.ok.inj found)
      exact ⟨w, .nil active w, h⟩
    | cons c cs =>
      rw [roundsOver] at found
      obtain ⟨_ | o, started, found⟩ := Sequence.exists_of_bind_eq_ok found
      · obtain ⟨rfl, rfl⟩ := Prod.mk.inj (Except.ok.inj found)
        obtain ⟨v, opened, shows⟩ := h.exists_openRound_eq started base
        rw [Option.elim_none, List.append_nil] at shows
        exact ⟨v, .last opened, shows⟩
      · obtain ⟨v, opened, shows⟩ := h.exists_openRound_eq started base
        simp only at found
        split at found
        case isTrue => cases found
        case isFalse removals =>
          obtain ⟨⟨later, between⟩, inner, found⟩ := Sequence.exists_of_bind_eq_ok found
          obtain ⟨rfl, rfl⟩ := Prod.mk.inj (Except.ok.inj found)
          obtain ⟨u, inner, shows⟩ := ih shows inner
          obtain ⟨v', closed, shows⟩ :=
            shows.exists_closeRound_eq (by simpa using removals) base notifier
          exact ⟨v', .around opened inner (concludeRound_of_ok later closed), shows⟩

/-- An addition succeeds if a check holds of the rounds that are found over the facts. -/
theorem Shows.exists_comesTo_of_any (h : Shows w.store.table facts) (limit : Nat)
    {check : List Round × List Concept → Bool}
    (found : (roundsOver limit active cs facts).toOption.any check = true) (base : FactBase)
    (notifier : Notifier) :
    ∃ rounds left v, ComesTo base notifier active cs w (.ok rounds) v ∧
      Shows v.store.table left ∧ check (rounds, left) = true := by
  cases e : roundsOver limit active cs facts with
  | error fault =>
    rw [e] at found
    cases found
  | ok r =>
    rw [e] at found
    obtain ⟨v, comes, shows⟩ := h.exists_comesTo e base notifier
    exact ⟨r.1, r.2, v, comes, shows, found⟩

end Rounds

end ConceptSpace.FactBase
