import ConceptSpace.Facts.Change
import ConceptSpace.Trigger.Delivery

/-!
# Rounds

Adding concepts runs triggers in *rounds*. A round adds the facts it is given and finds the firings
that they complete: a fact completes a condition of an active trigger if the other conditions hold
of stored facts, and a new trigger fires for all that is stored. The facts that the firings add are
given to the next round. When the later rounds are over, a round sends its notifications, removes
the facts that its firings remove, and stores the components of its new triggers. The rounds end
with one that finds nothing new.

Triggers may add facts for ever, and then the rounds have no end.
-/

namespace ConceptSpace

/-! ## Firings -/

/-- A trigger with bindings under which all of its conditions hold. -/
structure Firing where
  /-- The trigger. -/
  trigger : Trigger
  /-- What the variables of its conditions stand for. -/
  bindings : Bindings

/-- What firings cause. -/
structure Changes where
  /-- The facts to add. -/
  additions : List Concept := []
  /-- The facts to remove. -/
  removals : List Concept := []
  /-- The notifications to send. -/
  notifications : List Notification := []

namespace Firing

/-- What tells firings apart: the trigger and the bindings. -/
def identity (f : Firing) : List String :=
  f.trigger.name.key :: f.bindings.keys

/-- What a firing causes: the templates of its trigger with the bindings put in. -/
def changes (f : Firing) : Except Error Changes := do
  let values := f.bindings.values
  let additions ← liftSource (Source.substitute values f.trigger.additions)
  let removals ← liftSource (Source.substitute values f.trigger.removals)
  let receivers ← liftSource (Source.substitute values f.trigger.notifications)
  return ⟨additions, removals, receivers.map fun c => ⟨c.text, f.trigger, f.bindings⟩⟩

end Firing

/-- What several firings cause together; each fact is added and removed once. -/
def Changes.ofFirings (fs : List Firing) : Except Error Changes := do
  let parts ← fs.mapM Firing.changes
  return {
    additions := Concept.distinct (parts.flatMap (·.additions))
    removals := Concept.distinct (parts.flatMap (·.removals))
    notifications := parts.flatMap (·.notifications) }

namespace FactBase

open Storage

/-- The bindings under which the remaining conditions of a trigger hold, among those that extend
the bindings found for one condition. -/
def completions (base : FactBase) (t : Table) (found : Bindings) (remaining : List Concept) :
    Except Error (List Bindings) := do
  if remaining.isEmpty then return [found]
  let rules ← liftSource (Source.substitute found.values remaining)
  return (← base.answers t rules).filterMap found.merge?

/-- The firings of a trigger in which a fact fulfils one of the conditions. -/
def firingsWith (base : FactBase) (t : Table) (fact : Concept) (trigger : Trigger) :
    Except Error (List Firing) := do
  let found ← (Matcher.picks trigger.conditions).mapM fun (condition, remaining) =>
    match fact.match? condition with
    | none => return []
    | some bindings => base.completions t bindings remaining
  return (found.flatten.filter (·.isGround)).map (⟨trigger, ·⟩)

/-- The firings of active triggers that a new fact completes. A word completes none. -/
def firingsOfFact (base : FactBase) (t : Table) (active : List Trigger) (fact : Concept) :
    Except Error (List Firing) :=
  if fact.isAtom then return []
  else return (← active.mapM (base.firingsWith t fact)).flatten

/-- The firings of a trigger for all that is stored. Without conditions there are none. -/
def firingsOfTrigger (base : FactBase) (t : Table) (trigger : Trigger) :
    Except Error (List Firing) := do
  if trigger.conditions.isEmpty then return []
  let found ← base.answers t trigger.conditions
  return (found.filter (·.isGround)).map (⟨trigger, ·⟩)

/-- The firings that new facts complete, and those of new triggers, each once. -/
def firings (base : FactBase) (t : Table) (active : List Trigger) (facts : List Concept)
    (newTriggers : List Trigger) : Except Error (List Firing) := do
  let ofFacts ← facts.mapM (base.firingsOfFact t active)
  let ofTriggers ← newTriggers.mapM (base.firingsOfTrigger t)
  return Sequence.distinctBy Firing.identity (ofFacts.flatten ++ ofTriggers.flatten)

end FactBase

/-! ## Rounds -/

/-- What happened in a round. -/
structure Round where
  /-- The facts that were stored, the components of new triggers last. -/
  added : List Concept := []
  /-- The triggers that were defined. -/
  newTriggers : List Trigger := []
  /-- The firings. -/
  firings : List Firing := []
  /-- What the firings caused. -/
  changes : Changes := {}
  /-- How many facts were deleted. -/
  removed : Nat := 0

namespace Round

/-- The facts that were stored in any of some rounds. -/
def allAdded (rounds : List Round) : List Concept :=
  rounds.flatMap (·.added)

/-- The notifications of some rounds. -/
def allNotifications (rounds : List Round) : List Notification :=
  rounds.flatMap (·.changes.notifications)

/-- How many facts were deleted in some rounds. -/
def totalRemoved (rounds : List Round) : Nat :=
  rounds.foldr (fun round count => round.removed + count) 0

end Round

/-- What rounds change: the store, and the journal of what was sent. -/
structure SpaceState where
  /-- The store. -/
  store : Storage.Store
  /-- What was sent, the last at the end. -/
  journal : List Delivery := []

/-- A run that may end with a fault; what it has changed before stays. -/
abbrev Run := ExceptT Error (StateM SpaceState)

namespace Run

/-- Asks the table of the store. -/
def ask {α : Type} (query : Storage.Table → Except Error α) : Run α := fun w =>
  (query w.store.table, w)

/-- Changes the table of the store. -/
def changeTable {α : Type} (change : Storage.Table → Except Error α × Storage.Table) : Run α :=
  fun w =>
    let (result, table) := change w.store.table
    (result, { w with store := { w.store with table } })

/-- Changes the store. -/
def changeStore {α : Type} (change : Storage.Store → Except Error α × Storage.Store) : Run α :=
  fun w =>
    let (result, store) := change w.store
    (result, { w with store })

/-- Sends notifications. -/
def send (notifier : Notifier) (sent : List Notification) : Run Unit := fun w =>
  (.ok (), { w with journal := notifier.deliver w.journal sent })

end Run

/-- A run that may go on for ever; then there is no outcome. -/
abbrev LongRun := ExceptT Error (StateT SpaceState Option)

instance : MonadLift Run LongRun where
  monadLift run := fun w => some (run w)

/-- What a round finds before the later rounds. -/
structure Opening where
  /-- The active triggers, the new ones last. -/
  active : List Trigger
  /-- The facts that it has stored. -/
  facts : List Concept
  /-- The triggers that it defines. -/
  newTriggers : List Trigger
  /-- The concepts that define them. -/
  components : List Concept
  /-- The firings. -/
  firings : List Firing
  /-- What the firings cause. -/
  changes : Changes

namespace FactBase

/-- The first of some new triggers whose name an active trigger has. -/
def clash? (active newTriggers : List Trigger) : Option Trigger :=
  newTriggers.find? fun new => active.any (·.name.same new.name)

/-- Starts a round: stores the facts among some concepts and finds the firings that they complete.
There is nothing to go on with if the facts were stored before and no trigger is new. -/
def openRound (base : FactBase) (active : List Trigger) (cs : List Concept) :
    Run (Option Opening) := do
  let given := Separation.ofConcepts cs
  match clash? active given.triggers with
  | some trigger => throw (.duplicateTrigger trigger.name.key)
  | none =>
    let active := active ++ given.triggers
    let facts ← Run.changeTable (base.add given.facts)
    if facts.isEmpty && given.triggers.isEmpty then return none
    let firings ← Run.ask fun t => base.firings t active facts given.triggers
    let changes ← Run.ask fun _ => Changes.ofFirings firings
    return some {
      active, facts, newTriggers := given.triggers, components := given.components, firings,
      changes }

/-- Removes facts; the result is how many were deleted. Nothing is done if there are none to
remove. -/
def retract (base : FactBase) (facts : List Concept) : Run Nat := do
  if facts.isEmpty then return 0
  return (← Run.changeStore (base.remove facts)).count

/-- Ends a round when the later rounds are over: sends its notifications, removes the facts that its
firings remove, and stores the components of its triggers. -/
def closeRound (base : FactBase) (notifier : Notifier) (o : Opening) : Run Round := do
  Run.send notifier o.changes.notifications
  let removed ← base.retract o.changes.removals
  let components ← Run.changeTable (base.add o.components)
  return {
    added := o.facts ++ components, newTriggers := o.newTriggers, firings := o.firings,
    changes := o.changes, removed }

/-- Adds concepts under some active triggers; there is no outcome if the rounds never end. The
result lists the rounds from the first to the last; there are none if there is nothing to add. -/
def rounds (base : FactBase) (notifier : Notifier) (active : List Trigger) (cs : List Concept) :
    SpaceState → Option (Except Error (List Round) × SpaceState) :=
  match cs with
  | [] => (return [] : LongRun (List Round))
  | c :: cs => (do
    match ← base.openRound active (c :: cs) with
    | none => return [{}]
    | some opening =>
      let later ← (base |>.rounds notifier opening.active opening.changes.additions :
        LongRun (List Round))
      let round ← base.closeRound notifier opening
      return round :: later : LongRun (List Round))
partial_fixpoint

/-- Adds concepts and runs some active triggers. -/
def addRounds (base : FactBase) (notifier : Notifier) (active : List Trigger) (cs : List Concept) :
    Run (List Round) := fun w =>
  (base.rounds notifier active cs w).getD (.error .endlessRounds, w)

/-- Adds concepts and runs the stored triggers. -/
def addAll (base : FactBase) (notifier : Notifier) (cs : List Concept) : Run (List Round) := do
  if cs.isEmpty then return []
  let active ← Run.ask base.triggers
  base.addRounds notifier active cs

/-- Adds concepts under given triggers, or else under the stored ones. -/
def addUnder (base : FactBase) (notifier : Notifier) :
    Option (List Trigger) → List Concept → Run (List Round)
  | some active => base.addRounds notifier active
  | none => base.addAll notifier

end FactBase

end ConceptSpace
