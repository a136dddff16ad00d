import ConceptSpace.Trigger.Round

/-!
# Spaces

A space is one fact base with its triggers and with texts attached to its facts. Everything here
runs over the store of the space and the journal of its notifications.
-/

namespace ConceptSpace

/-- A space; its facts are in a store beside it. -/
structure Space where
  /-- The name of the space. -/
  id : String
  /-- Its settings. -/
  settings : Settings
  /-- Where its notifications go. -/
  notifier : Notifier := .accepting

namespace Space

/-- The space of some settings, which have to be in range. -/
def ofSettings (id : String) (settings : Settings) : Except Error Space :=
  match settings.validate with
  | .ok () => .ok { id, settings }
  | .error e => .error (.settings e)

/-- How the settings ask for the facts to be kept. -/
def backend (s : Space) : Storage.Backend :=
  if s.settings.dataDir.isSome then .durable else .memory

/-- The fact base of a space. -/
def base (s : Space) : FactBase :=
  ⟨s.id, s.settings.batchSize⟩

/-! ## Facts -/

/-- Adds facts and runs the triggers. -/
def add (s : Space) (facts : List Concept) : Run (List Round) :=
  s.base.addAll s.notifier facts

/-- Removes facts and the stored facts around them; the result is how many were deleted. -/
def remove (s : Space) (facts : List Concept) : Run Nat :=
  return (← Run.changeStore (s.base.remove facts)).count

/-- The stored fact with a key. -/
def lookup (key : String) : Run (Option Concept) :=
  Run.ask fun t => FactBase.get t key

/-- A page of stored facts; without a limit, that of the settings applies. -/
def page (s : Space) (p : Page) : Run (List Concept) :=
  Run.ask fun t => FactBase.page t { p with limit := some (p.limit.getD s.settings.pageLimit) }

/-- The stored facts that have a concept as a direct part. -/
def contexts (c : Concept) : Run (List Concept) :=
  Run.ask fun t => FactBase.contexts t c

/-- The triggers that the stored facts define. -/
def triggers (s : Space) : Run (List Trigger) :=
  Run.ask s.base.triggers

/-- Deletes everything; the result is the number of storage keys deleted. -/
def reset (s : Space) : Run Nat :=
  Run.changeStore s.base.reset

/-! ## Attached texts -/

/-- The directive between a fact and the text to attach to it. -/
def attachDirective : String := "@data"

/-- The fact and the text that a concept of the form `fact @data text` states. -/
def attachment? (c : Concept) : Option (Concept × String) :=
  match c.parts with
  | [target, directive, payload] =>
    if directive.key = attachDirective then some (target, payload.text) else none
  | _ => none

/-- The fact that a concept states: itself, or the one that a text is attached to. -/
def statedFact (c : Concept) : Concept :=
  match attachment? c with
  | some (target, _) => target
  | none => c

/-- Attaches a text to a stored fact; the result is whether the fact is stored. -/
def attach (s : Space) (c : Concept) (text : String) : Run Bool :=
  Run.changeStore fun store =>
    if FactBase.contains store.table c then
      (.ok true, { store with texts := store.texts.insert (Storage.Key.attached s.id c) text })
    else (.ok false, store)

/-- The text attached to a fact. -/
def attached (s : Space) (c : Concept) : Run (Option String) := fun w =>
  (.ok w.store.texts[Storage.Key.attached s.id c]?, w)

/-- Deletes the text attached to a fact; the result is whether there was one. -/
def detach (s : Space) (c : Concept) : Run Bool :=
  Run.changeStore fun store =>
    let name := Storage.Key.attached s.id c
    (.ok (store.texts.contains name), { store with texts := store.texts.erase name })

/-- Attaches texts to facts; those of facts that are not stored are left out. -/
def attachAll (s : Space) : List (Concept × String) → Run Unit
  | [] => return ()
  | (c, text) :: more => do
    let _ ← s.attach c text
    attachAll s more

/-- Adds what source texts state: facts, triggers, and texts attached to facts. -/
def addSource (s : Space) (sources : List String) (values : Interpolations) :
    Run (List Round) := do
  let stated ← Run.ask fun _ => liftSource (Source.interpolate values.values sources)
  let rounds ← s.add (stated.map statedFact)
  s.attachAll (stated.filterMap attachment?)
  return rounds

/-! ## Queries -/

/-- The answers to rules. Variables that were given exactly one value are listed with it. -/
def answers (s : Space) (rules : List String) (values : Interpolations) : Run (List Bindings) :=
  Run.ask fun t => do
    let rules ← liftSource (Source.interpolate values.values rules)
    let found ← s.base.answers t rules
    return found.map (Bindings.override (Std.ExtTreeMap.ofList values.single))

/-- The first answer to rules. -/
def firstAnswer (s : Space) (rules : List String) (values : Interpolations) :
    Run (Option Bindings) :=
  return (← s.answers rules values).head?

/-- The answers to rules after an earlier answer, which is put into the rules and decides on
common variables. -/
def answersAfter (s : Space) (earlier : Bindings) (rules : List String) : Run (List Bindings) :=
  Run.ask fun t => do
    let rules ← liftSource (Source.interpolate earlier.values rules)
    let found ← s.base.answers t rules
    return found.map (·.override earlier)

/-! ## Summaries -/

/-- A summary of a space. -/
structure Info where
  /-- The name of the space. -/
  id : String
  /-- The name of the backend. -/
  backend : String
  /-- The number of stored facts. -/
  facts : Nat
  /-- The number of triggers. -/
  triggers : Nat
  /-- Whether the facts outlive the program. -/
  persistent : Bool
  deriving DecidableEq, Repr

/-- A summary as lines of text. -/
def Info.describe (i : Info) : String :=
  "coeng space \"" ++ i.id ++ "\"\n" ++
    "  backend:     " ++ i.backend ++ "\n" ++
    "  facts:       " ++ toString i.facts ++ "\n" ++
    "  triggers:    " ++ toString i.triggers ++ "\n" ++
    "  persistent:  " ++ Settings.flagText i.persistent ++ "\n"

/-- The summary of a space. -/
def info (s : Space) : Run Info := do
  let triggers ← s.triggers
  let store := (← get).store
  return {
    id := s.id
    backend := store.backend.name
    facts := FactBase.count store.table
    triggers := triggers.length
    persistent := s.settings.dataDir.isSome }

/-- The space with its settings on one line. -/
def describe (s : Space) (store : Storage.Store) : String :=
  "Space \x7b id: " ++ Text.Quoted.quote s.id ++ ", backend: " ++
    Text.Quoted.quote store.backend.name ++ ", config: " ++ s.settings.describe ++ " \x7d"

end Space

end ConceptSpace
