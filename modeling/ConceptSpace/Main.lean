import ConceptSpace.Command.Session
import ConceptSpace.Storage.Snapshot

/-!
# The program

Fetches what a run may read from the disk, runs it, prints what it has to say, and puts back what it
keeps. Directories cannot be listed from here, so the names of the spaces are kept in a file beside
the directory of the spaces.
-/

namespace ConceptSpace.Command

/-- Adds what is on the disk at a path; `none` if there is nothing. -/
def fetchOne (files : Files) (path : String) : IO (Option Files) := do
  try
    let text ← IO.FS.readFile path
    return files.write? path <|
      match Storage.Snapshot.parse? text with
      | some store => .database store
      | none => .text text
  catch
    | .noFileOrDirectory .. => return none
    | _ => return files.makeDirs? path

/-- Adds what is on the disk at paths, each on the way to the next, as far as there is anything. -/
def fetchWay (files : Files) : List String → IO Files
  | [] => return files
  | "" :: more => fetchWay files more
  | path :: more => do
    match ← fetchOne files path with
    | some files => fetchWay files more
    | none => return files

/-- The file that lists the spaces. -/
def catalogFile (location : Location) : String :=
  joinPath location.dataDir "spaces.list"

/-- Adds the directories of the spaces that the catalog lists. -/
def fetchCatalog (files : Files) (location : Location) : IO Files := do
  let files ← fetchWay files (Files.way (catalogFile location))
  let names := ((files.read? (catalogFile location)).getD "").splitOn "\n"
  (names.filter Location.isSpaceName).foldlM (fun files name =>
    fetchWay files (Files.way (joinPath location.spacesDir name))) files

/-- Puts back the database of a space, and notes the space in the catalog. -/
def store (files : Files) (location : Location) (dir : String) : IO Unit := do
  let path := joinPath dir databaseFile
  match files.find? path with
  | some (.database store) =>
    IO.FS.createDirAll dir
    IO.FS.writeFile path (Storage.Snapshot.render store)
    let names := files.directoriesIn location.spacesDir
    IO.FS.writeFile (catalogFile location) ("\n".intercalate names)
  | _ => return ()

/-- Runs an invocation on the disk. -/
def execute (i : Invocation) (env : Environment) : IO Outcome := do
  let files ← (i.reads env).foldlM (fun files path => fetchWay files (Files.way path)) ∅
  match i.location env with
  | .error _ => return (i.run env files).1
  | .ok location =>
    let files ← fetchCatalog files location
    let (outcome, files) := i.run env files
    match i.spaceDir? env with
    | none => return outcome
    | some dir =>
      store files location dir
      return outcome

/-- The part of the environment that directories are found from. -/
def environment : IO Environment := do
  return {
    home := ← IO.getEnv "HOME"
    configHome := ← IO.getEnv "XDG_CONFIG_HOME"
    dataHome := ← IO.getEnv "XDG_DATA_HOME" }

end ConceptSpace.Command

open ConceptSpace.Command

/-- Runs the program on its arguments. -/
def main (arguments : List String) : IO UInt32 := do
  let outcome ← match invocation arguments with
    | .error refusal => pure refusal.outcome
    | .ok i => execute i (← environment)
  IO.print outcome.output
  match outcome.complaint with
  | none => pure ()
  | some d => IO.eprintln ("Error: " ++ d.message ++ (d.help.map ("\n  help: " ++ ·)).getD "")
  return UInt32.ofNat outcome.exitCode
