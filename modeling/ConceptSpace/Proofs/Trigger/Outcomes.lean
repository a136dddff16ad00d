import ConceptSpace.Trigger.Round

/-!
# What rounds come to

Nothing bounds the number of rounds, so that an addition may go on for ever. If it does not, its
rounds take place one inside the other: each has the later ones between its start and its end. Here
this is a relation between the concepts and the space before the rounds, and their outcome and the
space after them (`ComesTo`). The rounds of an addition come to an outcome just if they end
(`rounds_eq_some_iff`), and what is said of all additions is shown by induction on the relation.
-/

namespace ConceptSpace

/-! ## Runs -/

namespace Run

variable {α β : Type} {w w' : SpaceState}

theorem bind_apply (x : Run α) (f : α → Run β) (w : SpaceState) :
    (x >>= f) w = match x w with
      | (.ok a, v) => f a v
      | (.error e, v) => (.error e, v) := by
  change (ExceptT.bindCont f (x w).1) (x w).2 = _
  rcases x w with ⟨_ | _, _⟩ <;> rfl

/-- Both steps of a run that succeeds succeed. -/
theorem exists_of_bind {x : Run α} {f : α → Run β} {b : β} (h : (x >>= f) w = (.ok b, w')) :
    ∃ a v, x w = (.ok a, v) ∧ f a v = (.ok b, w') := by
  rw [bind_apply] at h
  rcases e : x w with ⟨error | a, v⟩
  · rw [e] at h
    exact absurd (Prod.mk.inj h).1 nofun
  · rw [e] at h
    exact ⟨a, v, rfl, h⟩

theorem error_of_bind {x : Run α} {f : α → Run β} {e : Error} (h : (x >>= f) w = (.error e, w')) :
    x w = (.error e, w') ∨ ∃ a v, x w = (.ok a, v) ∧ f a v = (.error e, w') := by
  rw [bind_apply] at h
  rcases step : x w with ⟨error | a, v⟩
  · rw [step] at h
    obtain ⟨same, rfl⟩ := Prod.mk.inj h
    obtain rfl := Except.error.inj same
    exact .inl rfl
  · rw [step] at h
    exact .inr ⟨a, v, rfl, h⟩

theorem eq_of_pure {a b : α} (h : (pure a : Run α) w = (.ok b, w')) : a = b ∧ w = w' := by
  obtain ⟨e, rfl⟩ := Prod.mk.inj h
  exact ⟨Except.ok.inj e, rfl⟩

theorem pure_ne_error {a : α} {e : Error} (h : (pure a : Run α) w = (.error e, w')) : False := by
  obtain ⟨same, -⟩ := Prod.mk.inj h
  cases same

theorem eq_of_ask {query : Storage.Table → Except Error α} {result : Except Error α}
    (h : ask query w = (result, w')) : query w.store.table = result ∧ w = w' :=
  Prod.mk.inj h

theorem eq_of_changeTable {change : Storage.Table → Except Error α × Storage.Table} {a : α}
    (h : changeTable change w = (.ok a, w')) :
    (change w.store.table).1 = .ok a ∧ w'.store.table = (change w.store.table).2 := by
  obtain ⟨e, rfl⟩ := Prod.mk.inj h
  exact ⟨e, rfl⟩

theorem bind_of_ok {x : Run α} {a : α} (h : x w = (.ok a, w')) (f : α → Run β) :
    (x >>= f) w = f a w' := by
  rw [bind_apply, h]

theorem ask_of_ok {query : Storage.Table → Except Error α} {a : α}
    (ok : query w.store.table = .ok a) : ask query w = (.ok a, w) :=
  Prod.ext ok rfl

theorem exists_changeTable_eq {change : Storage.Table → Except Error α × Storage.Table} {a : α}
    (ok : (change w.store.table).1 = .ok a) :
    ∃ v, changeTable change w = (.ok a, v) ∧ v.store.table = (change w.store.table).2 :=
  ⟨_, Prod.ext ok rfl, rfl⟩

end Run

namespace LongRun

variable {α β : Type}

theorem bind_apply (x : LongRun α) (f : α → LongRun β) (w : SpaceState) :
    (x >>= f) w = (x w).bind fun
      | (.ok a, v) => f a v
      | (.error e, v) => some (.error e, v) := by
  change Option.bind (x w) _ = _
  congr 1
  funext r
  rcases r with ⟨_ | _, _⟩ <;> rfl

theorem lift_apply (run : Run α) (w : SpaceState) : (liftM run : LongRun α) w = some (run w) := rfl

end LongRun

namespace FactBase

variable {base : FactBase} {notifier : Notifier} {active : List Trigger} {c : Concept}
  {cs : List Concept} {w w' : SpaceState} {result : Except Error (List Round)}

/-! ## One round -/

/-- Ends a round when the later rounds have come to an outcome. -/
def concludeRound (base : FactBase) (notifier : Notifier) (o : Opening)
    (later : Except Error (List Round)) : Run (List Round) := do
  let later ← Run.ask fun _ => later
  let round ← base.closeRound notifier o
  return round :: later

theorem concludeRound_of_ok {o : Opening} {round : Round} (later : List Round)
    (closed : base.closeRound notifier o w = (.ok round, w')) :
    base.concludeRound notifier o (.ok later) w = (.ok (round :: later), w') := by
  have asked : Run.ask (fun _ => .ok later) w = (.ok later, w) := Run.ask_of_ok rfl
  rw [concludeRound, Run.bind_of_ok asked, Run.bind_of_ok closed]
  rfl

theorem exists_of_concludeRound {o : Opening} {later : Except Error (List Round)}
    {rounds : List Round} (ok : base.concludeRound notifier o later w = (.ok rounds, w')) :
    ∃ more round, later = .ok more ∧ base.closeRound notifier o w = (.ok round, w') ∧
      rounds = round :: more := by
  obtain ⟨more, v, asked, ok⟩ := Run.exists_of_bind ok
  obtain ⟨rfl, rfl⟩ := Run.eq_of_ask asked
  obtain ⟨round, v, closed, ok⟩ := Run.exists_of_bind ok
  obtain ⟨rfl, rfl⟩ := Run.eq_of_pure ok
  exact ⟨more, round, rfl, closed, rfl⟩

theorem error_of_concludeRound {o : Opening} {later : Except Error (List Round)} {e : Error}
    (failed : base.concludeRound notifier o later w = (.error e, w')) :
    (later = .error e ∧ w = w') ∨ base.closeRound notifier o w = (.error e, w') := by
  obtain asked | ⟨more, v, asked, failed⟩ := Run.error_of_bind failed
  · exact .inl (Run.eq_of_ask asked)
  · obtain ⟨-, rfl⟩ := Run.eq_of_ask asked
    obtain closed | ⟨round, v, -, failed⟩ := Run.error_of_bind failed
    · exact .inr closed
    · exact (Run.pure_ne_error failed).elim

/-- What comes of concepts, if `rounds` is what comes of those that are added later. -/
def roundWith (base : FactBase) (notifier : Notifier)
    (rounds : List Trigger → List Concept → LongRun (List Round)) (active : List Trigger)
    (c : Concept) (cs : List Concept) : LongRun (List Round) := do
  match ← base.openRound active (c :: cs) with
  | none => return [{}]
  | some opening =>
    let later ← rounds opening.active opening.changes.additions
    let round ← base.closeRound notifier opening
    return round :: later

theorem roundWith_apply (rounds : List Trigger → List Concept → LongRun (List Round)) :
    base.roundWith notifier rounds active c cs w =
      match base.openRound active (c :: cs) w with
      | (.error e, v) => some (.error e, v)
      | (.ok none, v) => some (.ok [{}], v)
      | (.ok (some o), v) => (rounds o.active o.changes.additions v).map fun later =>
        base.concludeRound notifier o later.1 later.2 := by
  rw [roundWith, LongRun.bind_apply, LongRun.lift_apply, Option.bind_some]
  rcases base.openRound active (c :: cs) w with ⟨e | _ | o, v⟩
  · rfl
  · rfl
  · simp only [LongRun.bind_apply, LongRun.lift_apply]
    cases rounds o.active o.changes.additions v with
    | none => rfl
    | some later =>
      obtain ⟨e | later, u⟩ := later
      · rfl
      · simp only [Option.bind_some, Option.map_some, concludeRound, Run.ask, Run.bind_apply]
        rcases base.closeRound notifier o u with ⟨_ | _, _⟩ <;> rfl

theorem rounds_cons (base : FactBase) (notifier : Notifier) (active : List Trigger) (c : Concept)
    (cs : List Concept) : base.rounds notifier active (c :: cs) =
      base.roundWith notifier (base.rounds notifier) active c cs := by
  conv =>
    lhs
    rw [rounds]
  rfl

/-! ## All rounds -/

/-- The outcome of an addition that ends, and the space after it. A query that never ends counts as
a fault here. -/
inductive ComesTo (base : FactBase) (notifier : Notifier) :
    List Trigger → List Concept → SpaceState → Except Error (List Round) → SpaceState → Prop where
  /-- Without concepts there is no round. -/
  | nil (active : List Trigger) (w : SpaceState) : ComesTo base notifier active [] w (.ok []) w
  /-- The start of a round fails. -/
  | failed {active : List Trigger} {c : Concept} {cs : List Concept} {w w' : SpaceState} {e : Error}
      (opened : base.openRound active (c :: cs) w = (.error e, w')) :
      ComesTo base notifier active (c :: cs) w (.error e) w'
  /-- A round finds nothing new. -/
  | last {active : List Trigger} {c : Concept} {cs : List Concept} {w w' : SpaceState}
      (opened : base.openRound active (c :: cs) w = (.ok none, w')) :
      ComesTo base notifier active (c :: cs) w (.ok [{}]) w'
  /-- A round has the later ones between its start and its end. -/
  | around {active : List Trigger} {c : Concept} {cs : List Concept} {w v u w' : SpaceState}
      {o : Opening} {later result : Except Error (List Round)}
      (opened : base.openRound active (c :: cs) w = (.ok (some o), v))
      (inner : ComesTo base notifier o.active o.changes.additions v later u)
      (concluded : base.concludeRound notifier o later u = (result, w')) :
      ComesTo base notifier active (c :: cs) w result w'

/-- The rounds of an addition end just if they come to an outcome. -/
theorem rounds_eq_some_iff : base.rounds notifier active cs w = some (result, w') ↔
    ComesTo base notifier active cs w result w' := by
  constructor
  · refine rounds.partial_correctness base notifier
      (fun active cs w r => ComesTo base notifier active cs w r.1 r.2)
      (fun later ih active cs w r h => ?_) active cs w (result, w')
    cases cs with
    | nil =>
      obtain rfl := Option.some.inj h
      exact .nil active w
    | cons c cs =>
      obtain h : base.roundWith notifier later active c cs w = some r := h
      rw [roundWith_apply] at h
      rcases opened : base.openRound active (c :: cs) w with ⟨e | _ | o, v⟩
      · rw [opened] at h
        obtain rfl := Option.some.inj h
        exact .failed opened
      · rw [opened] at h
        obtain rfl := Option.some.inj h
        exact .last opened
      · rw [opened] at h
        obtain ⟨inner, ran, rfl⟩ := Option.map_eq_some_iff.mp h
        exact .around opened (ih _ _ _ _ ran) rfl
  · intro h
    induction h with
    | nil =>
      rw [rounds]
      rfl
    | failed opened | last opened => rw [rounds_cons, roundWith_apply, opened]
    | around opened inner concluded ih =>
      rw [rounds_cons, roundWith_apply, opened]
      simp only [ih, Option.map_some, concluded]

/-! ## Additions -/

/-- An addition that comes to an outcome has it. -/
theorem ComesTo.addRounds_eq (h : ComesTo base notifier active cs w result w') :
    base.addRounds notifier active cs w = (result, w') := by
  rw [addRounds, rounds_eq_some_iff.mpr h]
  rfl

/-- An addition comes to an outcome or goes on for ever. -/
theorem comesTo_or_endless (base : FactBase) (notifier : Notifier) (active : List Trigger)
    (cs : List Concept) (w : SpaceState) :
    (∃ result w', base.addRounds notifier active cs w = (result, w') ∧
        ComesTo base notifier active cs w result w') ∨
      base.addRounds notifier active cs w = (.error .endlessRounds, w) := by
  cases ended : base.rounds notifier active cs w with
  | none => exact .inr (by rw [addRounds, ended]; rfl)
  | some r =>
    have h := rounds_eq_some_iff.mp (ended : _ = some (r.1, r.2))
    exact .inl ⟨r.1, r.2, h.addRounds_eq, h⟩

theorem comesTo_of_addRounds (h : base.addRounds notifier active cs w = (result, w'))
    (ended : result ≠ .error .endlessRounds) : ComesTo base notifier active cs w result w' := by
  rcases comesTo_or_endless base notifier active cs w with ⟨result', v, e, comesTo⟩ | endless
  · obtain ⟨rfl, rfl⟩ := Prod.mk.inj (e.symm.trans h)
    exact comesTo
  · exact absurd (Prod.mk.inj (h.symm.trans endless)).1 ended

/-- An addition under the stored triggers is one under the triggers that are found. -/
theorem addAll_eq_addRounds (loaded : base.triggers w.store.table = .ok active) :
    base.addAll notifier cs w = base.addRounds notifier active cs w := by
  cases cs with
  | nil => exact (ComesTo.nil active w).addRounds_eq.symm
  | cons c cs =>
    rw [addAll, List.isEmpty_cons, if_neg Bool.false_ne_true]
    exact Run.bind_of_ok (Run.ask_of_ok loaded) _

/-- The triggers under which concepts are added. -/
def activeTriggers (base : FactBase) (t : Storage.Table) :
    Option (List Trigger) → Except Error (List Trigger)
  | some active => .ok active
  | none => base.triggers t

/-- An addition has no concepts, or its triggers cannot be found, or it is one under them. -/
theorem addUnder_cases (base : FactBase) (notifier : Notifier) (given : Option (List Trigger))
    (cs : List Concept) (w : SpaceState) :
    base.addUnder notifier given cs w = (.ok [], w) ∨
      (∃ e, base.activeTriggers w.store.table given = .error e ∧
        base.addUnder notifier given cs w = (.error e, w)) ∨
      ∃ active, base.activeTriggers w.store.table given = .ok active ∧
        base.addUnder notifier given cs w = base.addRounds notifier active cs w := by
  cases given with
  | some active => exact .inr (.inr ⟨active, rfl, rfl⟩)
  | none =>
    cases loaded : base.triggers w.store.table with
    | ok active => exact .inr (.inr ⟨active, loaded, addAll_eq_addRounds loaded⟩)
    | error e =>
      rw [addUnder, addAll]
      split
      · exact .inl rfl
      · refine .inr (.inl ⟨e, loaded, ?_⟩)
        rw [Run.bind_apply, Run.ask, loaded]

end FactBase

end ConceptSpace
