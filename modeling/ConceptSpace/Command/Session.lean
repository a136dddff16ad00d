import ConceptSpace.Command.Files
import ConceptSpace.Command.Line
import ConceptSpace.Space.Basic
import ConceptSpace.Space.SettingsFile

/-!
# Sessions

One run of the program: from its arguments, the environment and the files to what it prints, how it
ends, and the files afterwards. A durable space is opened and kept again whatever the command does
in between, so that what a failing command has changed before it failed stays.
-/

namespace ConceptSpace.Command

/-- How a run ended. -/
structure Outcome where
  /-- The number that the program ends with. -/
  exitCode : Nat
  /-- What it prints. -/
  output : String := ""
  /-- What it complains about. -/
  complaint : Option Diagnostic := none

/-- The version of the program. -/
def versionText : String := "coeng 0.1.0"

/-- The text that explains the command line. -/
def helpText : String :=
  "Usage: coeng [--space SPACE] [--data-dir DIR] [--memory] COMMAND\n\n" ++
    "Commands: add, remove, get, list, contexts, match, data, triggers, info, reset, spaces\n"

/-- How a run ends whose arguments state no invocation. -/
def Refusal.outcome : Refusal → Outcome
  | .usage => { exitCode := 2, complaint := some ⟨"the arguments do not fit", "usage", none⟩ }
  | .help => { exitCode := 0, output := helpText }
  | .version => { exitCode := 0, output := versionText ++ "\n" }

/-- How a run ends that fails. -/
def failure (d : Diagnostic) : Outcome :=
  { exitCode := 1, complaint := some d }

/-- How a run ends that prints lines. -/
def success (lines : List String) : Outcome :=
  { exitCode := 0, output := String.join (lines.map (· ++ "\n")) }

/-! ## Commands -/

/-- A number and a phrase behind it. -/
def counted (n : Nat) (phrase : String) : String :=
  toString n ++ " " ++ phrase

/-- The line on the triggers that an addition has run; there is none if nothing came of them. -/
def triggerLine (rounds : List Round) : List String :=
  let sent := (Round.allNotifications rounds).length
  let removed := Round.totalRemoved rounds
  if 1 < rounds.length ∨ 0 < sent ∨ 0 < removed then
    ["Triggers: " ++ ", ".intercalate [counted rounds.length "round(s)",
      counted sent "notification(s)", counted removed "fact(s) removed"]]
  else []

/-- The lines on an addition. -/
def additionLines (rounds : List Round) : List String :=
  let added := Round.allAdded rounds
  ("Added " ++ counted added.length "fact(s):") :: added.map (fun c => "  " ++ c.key) ++
    triggerLine rounds

/-- The lines of a listing, or one line if it is empty. -/
def listed (none : String) (lines : List String) : List String :=
  if lines.isEmpty then [none] else lines

/-- An answer on one line. -/
def answerLine (b : Bindings) : String :=
  Text.Json.renderObject (b.toList.map fun (name, value) => (name, value.key))

/-- The concept that a source text denotes. -/
def readConcept (source : String) : Run Concept :=
  Run.ask fun _ => liftSource (Source.concept source)

/-- The interpolations that pairs of a variable and a source text denote. -/
def readValues (pairs : List (String × String)) : Run Interpolations :=
  Run.ask fun _ => liftSource (Interpolations.ofSources pairs)

/-- Works on the text attached to a fact; the result is the lines to print. -/
def performOnData (s : Space) : DataAction → Run (List String)
  | .set key text => do
    let c ← readConcept key
    if ← s.attach c text then return ["Data set for \"" ++ c.key ++ "\"."]
    else throw (.conceptNotFound key)
  | .get key => do
    let c ← readConcept key
    match ← s.attached c with
    | some text => return [text]
    | none => return ["No data for \"" ++ c.key ++ "\"."]
  | .remove key => do
    let c ← readConcept key
    if ← s.detach c then return ["Data removed from \"" ++ c.key ++ "\"."]
    else return ["No data for \"" ++ c.key ++ "\"."]

/-- Performs an action on a space; the result is the lines to print. The texts of files are taken
to be among the sources already, and a listing of all spaces needs no space. -/
def perform (s : Space) : Action → Run (List String)
  | .add sources _ vars => do
    let values ← readValues vars
    return additionLines (← s.addSource sources values)
  | .remove sources => do
    let cs ← Run.ask fun _ => liftSource (sources.mapM Source.concept)
    return ["Removed " ++ counted (← s.remove cs) "fact(s)."]
  | .get key => do
    match ← Space.lookup key with
    | none => return ["Not found: \"" ++ key ++ "\""]
    | some c =>
      match ← s.attached c with
      | none => return [c.key]
      | some text => return [c.key, "  data: " ++ text]
  | .list start stop limit => do
    return (← s.page { start, stop, limit }).map Concept.key
  | .contexts source => do
    return (← Space.contexts (← readConcept source)).map Concept.key
  | .answer rules vars => do
    let values ← readValues vars
    return listed "No matches." ((← s.answers rules values).map answerLine)
  | .data action => performOnData s action
  | .triggers => do
    return listed "No triggers defined." ((← s.triggers).map Trigger.describe)
  | .info => do return [(← s.info).describe]
  | .reset => do
    return ["Reset space \"" ++ s.id ++ "\": " ++ counted (← s.reset) "key(s) deleted."]
  | .spaces => return []

/-! ## Opening and keeping a space -/

/-- Where spaces are kept. -/
def Invocation.location (i : Invocation) (env : Environment) : Except Error Location :=
  match i.dataDir with
  | some dir => .ok (Location.ofDirectory dir)
  | none => (Location.ofEnvironment env).mapError .location

/-- The settings in the file of settings; without the file, the defaults. -/
def settingsIn (files : Files) (location : Location) : Except Error Settings :=
  let path := location.settingsFile
  if files.contains path then
    match files.read? path with
    | none => .error (.settings (.unreadable path))
    | some source => (Settings.ofSource path source).mapError .settings
  else .ok {}

/-- The space of an invocation. -/
def Invocation.openSpace (i : Invocation) (files : Files) (location : Location) :
    Except Error Space := do
  let settings ← settingsIn files location
  if i.memory then Space.ofSettings i.space { settings with dataDir := none }
  else
    let dir ← (location.spaceDir i.space).mapError .location
    Space.ofSettings i.space { settings with dataDir := some dir }

/-- The store in the database file of a space; a file that is missing or empty is a new database. -/
def storeAt? (files : Files) (path : String) : Option Storage.Store :=
  match files.find? path with
  | none => some (Storage.Store.create .durable)
  | some (.text "") => some (Storage.Store.create .durable)
  | some (.database store) => some store
  | some _ => none

/-- The store of a space, and the files with the directory of the space made. -/
def openStore (files : Files) (s : Space) : Except Error (Storage.Store × Files) :=
  match s.settings.dataDir with
  | none => .ok (Storage.Store.create .memory, files)
  | some dir =>
    let path := joinPath dir databaseFile
    match files.makeDirs? dir with
    | none => .error (.storage (.unavailable path))
    | some files =>
      match storeAt? files path with
      | none => .error (.storage (.unavailable path))
      | some store => .ok (store, files)

/-- The files with the store of a space kept. -/
def keepStore (files : Files) (s : Space) (store : Storage.Store) : Files :=
  match s.settings.dataDir with
  | none => files
  | some dir => (files.write? (joinPath dir databaseFile) (.database store)).getD files

/-- What is wrong with a file that cannot be read. -/
def unreadable (path : String) : Diagnostic :=
  ⟨"failed to read " ++ path, "coeng::command::read", none⟩

/-- An action with the texts of its files behind its sources. -/
def withFiles (files : Files) : Action → Except Diagnostic Action
  | .add sources paths vars => do
    let texts ← paths.mapM fun path =>
      match files.read? path with
      | some text => .ok text
      | none => .error (unreadable path)
    return .add (sources ++ texts) [] vars
  | action => .ok action

/-! ## Runs -/

/-- Runs an action on an open space. -/
def runAction (files : Files) (s : Space) (store : Storage.Store) (action : Action) :
    Outcome × Storage.Store :=
  match withFiles files action with
  | .error d => (failure d, store)
  | .ok action =>
    match perform s action { store } with
    | (.ok lines, state) => (success lines, state.store)
    | (.error e, state) => (failure e.diagnostic, state.store)

/-- Runs an invocation. -/
def Invocation.run (i : Invocation) (env : Environment) (files : Files) : Outcome × Files :=
  match i.location env with
  | .error e => (failure e.diagnostic, files)
  | .ok location =>
    if i.action = .spaces then
      (success (listed ("No spaces under " ++ location.dataDir ++ ".")
        (files.directoriesIn location.spacesDir)), files)
    else
      match i.openSpace files location with
      | .error e => (failure e.diagnostic, files)
      | .ok s =>
        match openStore files s with
        | .error e => (failure e.diagnostic, files)
        | .ok (store, files) =>
          let (outcome, store) := runAction files s store i.action
          (outcome, keepStore files s store)

/-- The directory of the space of an invocation, if it is kept in one. -/
def Invocation.spaceDir? (i : Invocation) (env : Environment) : Option String := do
  if i.memory || i.action == .spaces then none
  else
    let location ← (i.location env).toOption
    (location.spaceDir i.space).toOption

/-- The paths of the files that a run of an invocation may read. -/
def Invocation.reads (i : Invocation) (env : Environment) : List String :=
  let settings := (i.location env).toOption.toList.map (·.settingsFile)
  let texts := match i.action with
    | .add _ paths _ => paths
    | _ => []
  let database := (i.spaceDir? env).toList.map (joinPath · databaseFile)
  settings ++ texts ++ database

/-- Runs the program. -/
def run (arguments : List String) (env : Environment) (files : Files) : Outcome × Files :=
  match invocation arguments with
  | .error refusal => (refusal.outcome, files)
  | .ok i => i.run env files

end ConceptSpace.Command
