import ConceptSpace.Proofs.Facts.Following
import ConceptSpace.Proofs.Trigger.Outcomes

/-!
# Rounds that can be computed

What comes of rounds or of queries that may never end cannot be computed. An *attempt* at an
addition can: it gives up after some rounds, and at a query with variables. If it does not give up,
the addition comes to the same (`ComesTo.of_attempt`). An attempt works on the table, and so it
follows rounds that fail or remove facts, too.
-/

namespace ConceptSpace

/-- What an attempt at a run does: it gives up, or it does what the run does. -/
def Run.Attempts {α : Type} (x y : Run α) : Prop :=
  ∀ w, (x w).1 = .error gaveUp ∨ y w = x w

namespace Run.Attempts

variable {α β : Type}

theorem refl (x : Run α) : Run.Attempts x x :=
  fun _ => .inr rfl

theorem ask {query query' : Storage.Table → Except Error α}
    (h : ∀ t, ConceptSpace.Attempts (query t) (query' t)) :
    Run.Attempts (Run.ask query) (Run.ask query') :=
  fun w => (h w.store.table).imp_right fun same => Prod.ext same rfl

theorem bind {x y : Run α} {f g : α → Run β} (h : Run.Attempts x y)
    (next : ∀ a, Run.Attempts (f a) (g a)) : Run.Attempts (x >>= f) (y >>= g) := by
  intro w
  rw [bind_apply, bind_apply]
  rcases h w with given | same
  · rcases step : x w with ⟨e | a, v⟩ <;> rw [step] at given
    · exact .inl (congrArg Except.error (Except.error.inj given))
    · cases given
  · rw [same]
    rcases x w with ⟨e | a, v⟩
    · exact .inr rfl
    · exact next a v

end Run.Attempts

namespace FactBase

open Storage

variable {base : FactBase} {notifier : Notifier} {active : List Trigger} {cs : List Concept}
  {t : Table} {w w' : SpaceState}

/-! ## Queries -/

/-- Answers rules without variables by looking them up, and gives up at others. -/
def lookUp (base : FactBase) (t : Table) (rules : List Concept) : Except Error (List Bindings) :=
  let ground := Concept.distinct rules
  if ground.any (·.isPattern) then .error gaveUp
  else if (base.existing t ground).length < ground.length then .ok []
  else .ok [∅]

theorem attempts_lookUp (base : FactBase) (t : Table) (rules : List Concept) :
    Attempts (base.lookUp t rules) (base.answers t rules) := by
  rw [lookUp]
  split
  case isTrue => exact .inl rfl
  case isFalse ground =>
    have all : ∀ r ∈ Concept.distinct rules, r.isPattern = false := by simpa using ground
    have split : (Concept.distinct rules).partition (·.isPattern) =
        ([], Concept.distinct rules) := by
      rw [List.partition_eq_filter_filter, List.filter_eq_nil_iff.mpr (by simpa using all),
        List.filter_eq_self.mpr (by simpa using all)]
    split
    case isTrue missing =>
      exact .inr (answers_of_missing split missing)
    case isFalse stored =>
      have e : base.answersWithin t false 1 rules = .ok [∅] :=
        answersWithin_of_pivot_none split stored rfl
      exact .inr (answers_eq_ok e)

/-- The bindings that complete others, as by `completions`, if queries are answered by `ask`. -/
def completionsBy (ask : List Concept → Except Error (List Bindings)) (found : Bindings)
    (remaining : List Concept) : Except Error (List Bindings) := do
  if remaining.isEmpty then return [found]
  let rules ← liftSource (Source.substitute found.values remaining)
  return (← ask rules).filterMap found.merge?

/-- The firings of triggers, as by `firings`, if queries are answered by `ask`. -/
def firingsBy (ask : List Concept → Except Error (List Bindings)) (active : List Trigger)
    (facts : List Concept) (newTriggers : List Trigger) : Except Error (List Firing) := do
  let ofFacts ← facts.mapM fun fact =>
    if fact.isAtom then return []
    else return (← active.mapM fun trigger => do
      let found ← (Matcher.picks trigger.conditions).mapM fun (condition, remaining) =>
        match fact.match? condition with
        | none => return []
        | some bindings => completionsBy ask bindings remaining
      return (found.flatten.filter (·.isGround)).map (⟨trigger, ·⟩)).flatten
  let ofTriggers ← newTriggers.mapM fun trigger => do
    if trigger.conditions.isEmpty then return []
    let found ← ask trigger.conditions
    return (found.filter (·.isGround)).map (⟨trigger, ·⟩)
  return Sequence.distinctBy Firing.identity (ofFacts.flatten ++ ofTriggers.flatten)

theorem firings_eq_firingsBy (base : FactBase) (t : Table) :
    base.firings t = firingsBy (base.answers t) := rfl

theorem attempts_firingsBy {ask ask' : List Concept → Except Error (List Bindings)}
    (h : ∀ rules, Attempts (ask rules) (ask' rules)) (active : List Trigger)
    (facts : List Concept) (newTriggers : List Trigger) :
    Attempts (firingsBy ask active facts newTriggers)
      (firingsBy ask' active facts newTriggers) := by
  refine .bind (.mapM (fun fact => ?_) facts) fun ofFacts =>
    .bind (.mapM (fun trigger => ?_) newTriggers) fun ofTriggers => .refl _
  · split
    · exact .refl _
    refine .bind (.mapM (fun trigger => .bind (.mapM (fun pick => ?_) _) fun found => .refl _)
      active) fun found => .refl _
    simp only
    split
    · exact .refl _
    rw [completionsBy, completionsBy]
    split
    · exact .refl _
    · exact .bind (.refl _) fun rules => .bind (h rules) fun found => .refl _
  · split
    · exact .refl _
    · exact .bind (h _) fun found => .refl _

/-! ## Rounds -/

/-- Starts a round, as by `openRound`, if queries are answered by `ask`. -/
def openRoundBy (base : FactBase) (ask : Table → List Concept → Except Error (List Bindings))
    (active : List Trigger) (cs : List Concept) : Run (Option Opening) := do
  let given := Separation.ofConcepts cs
  match clash? active given.triggers with
  | some trigger => throw (.duplicateTrigger trigger.name.key)
  | none =>
    let active := active ++ given.triggers
    let facts ← Run.changeTable (base.add given.facts)
    if facts.isEmpty && given.triggers.isEmpty then return none
    let firings ← Run.ask fun t => firingsBy (ask t) active facts given.triggers
    let changes ← Run.ask fun _ => Changes.ofFirings firings
    return some {
      active, facts, newTriggers := given.triggers, components := given.components, firings,
      changes }

theorem openRound_eq_openRoundBy (base : FactBase) :
    base.openRound = base.openRoundBy base.answers := rfl

theorem attempts_openRoundBy (base : FactBase) (active : List Trigger) (cs : List Concept) :
    Run.Attempts (base.openRoundBy base.lookUp active cs) (base.openRound active cs) := by
  rw [openRound_eq_openRoundBy, openRoundBy, openRoundBy]
  cases clash? active (Separation.ofConcepts cs).triggers with
  | some trigger => exact .refl _
  | none =>
    refine .bind (.refl _) fun new => ?_
    split
    · exact .refl _
    · exact .bind (.ask fun t => attempts_firingsBy (attempts_lookUp base t) _ _ _)
        fun firings => .refl _

/-- An attempt at an addition, which gives up if there are more rounds than a limit. -/
def attempt (base : FactBase) (notifier : Notifier) :
    Nat → List Trigger → List Concept → Run (List Round)
  | _, _, [] => return []
  | 0, _, _ => throw gaveUp
  | limit + 1, active, c :: cs => do
    match ← base.openRoundBy base.lookUp active (c :: cs) with
    | none => return [{}]
    | some o =>
      let later ← attempt base notifier limit o.active o.changes.additions
      let round ← base.closeRound notifier o
      return round :: later

/-- An addition comes to what an attempt at it comes to that does not give up. -/
theorem ComesTo.of_attempt {limit : Nat} {result : Except Error (List Round)}
    (h : base.attempt notifier limit active cs w = (result, w')) (ended : result ≠ .error gaveUp) :
    ComesTo base notifier active cs w result w' := by
  induction limit generalizing active cs w w' result with
  | zero =>
    cases cs with
    | nil =>
      obtain ⟨rfl, rfl⟩ := Prod.mk.inj h
      exact .nil active w
    | cons c cs => exact absurd (Prod.mk.inj h).1.symm ended
  | succ limit ih =>
    cases cs with
    | nil =>
      obtain ⟨rfl, rfl⟩ := Prod.mk.inj h
      exact .nil active w
    | cons c cs =>
      rw [attempt, Run.bind_apply] at h
      have start := attempts_openRoundBy base active (c :: cs) w
      rcases opened : base.openRoundBy base.lookUp active (c :: cs) w with ⟨e | _ | o, v⟩
      · rw [opened] at h start
        obtain ⟨rfl, rfl⟩ := Prod.mk.inj h
        exact .failed (start.resolve_left fun given =>
          ended (congrArg Except.error (Except.error.inj given)))
      · rw [opened] at h start
        obtain ⟨rfl, rfl⟩ := Prod.mk.inj h
        exact .last (start.resolve_left (by simp))
      · rw [opened] at h start
        rcases inner : base.attempt notifier limit o.active o.changes.additions v with ⟨later, u⟩
        have concluded : base.concludeRound notifier o later u = (result, w') := by
          rw [← h]
          simp only
          rw [concludeRound, Run.bind_apply, Run.bind_apply, inner]
          rfl
        refine .around (start.resolve_left (by simp)) (ih inner ?_) concluded
        rintro rfl
        exact ended (Prod.mk.inj concluded).1.symm

theorem addRounds_of_attempt {limit : Nat} {result : Except Error (List Round)}
    (h : base.attempt notifier limit active cs w = (result, w')) (ended : result ≠ .error gaveUp) :
    base.addRounds notifier active cs w = (result, w') :=
  (ComesTo.of_attempt h ended).addRounds_eq

/-- An addition succeeds if a check of the rounds of an attempt holds, and the check holds of its
rounds. -/
theorem exists_addRounds_eq_of_any (limit : Nat) {check : List Round → Bool}
    (h : (base.attempt notifier limit active cs w).1.toOption.any check = true) :
    ∃ rounds w', base.addRounds notifier active cs w = (.ok rounds, w') ∧ check rounds = true := by
  obtain ⟨rounds, w', e, checked⟩ := Sequence.exists_of_any_toOption h
  exact ⟨rounds, w', addRounds_of_attempt e nofun, checked⟩

end FactBase

end ConceptSpace
