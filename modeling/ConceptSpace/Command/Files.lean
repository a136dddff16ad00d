import ConceptSpace.Space.Location
import ConceptSpace.Storage.Store

/-!
# Files

The part of a file system that commands work on: directories, texts and databases, by their places.
A place is the list of names on the way to it, from the working directory or, after the name `/`,
from the root; names `..` in front lead out of the working directory. A path is looked up name by
name; everything before its last name has to be a directory.
-/

namespace ConceptSpace.Command

/-- What is found at a place. -/
inductive Entry where
  /-- A directory. -/
  | directory
  /-- A file of text. -/
  | text (content : String)
  /-- A database, which is no text. -/
  | database (store : Storage.Store)

/-- The names on the way to a file or a directory. -/
abbrev Place := List String

/-- Directories and files by their places. -/
abbrev Files := Std.ExtTreeMap Place Entry

namespace Files

/-- The place that an absolute path starts from. -/
def root : Place := ["/"]

/-- Whether a place is the working directory or around it. -/
def isAround (place : Place) : Bool :=
  place.all (· == "..")

/-- What is found at a place. The starting points of paths are directories. -/
def entry? (files : Files) (place : Place) : Option Entry :=
  if isAround place ∨ place = root then some .directory else files[place]?

/-- Whether there is a directory at a place. -/
def isDirectory (files : Files) (place : Place) : Bool :=
  match files.entry? place with
  | some .directory => true
  | _ => false

/-- The names in a path, with the place that it starts from. -/
def names (path : String) : Place × List String :=
  let names := (path.toList.splitOn '/').map String.ofList
  match names with
  | "" :: more => if path.isEmpty then ([], names) else (root, more)
  | _ => ([], names)

/-- The place around a place. -/
def outside (place : Place) : Place :=
  if place = root then root
  else if isAround place then place ++ [".."]
  else place.dropLast

/-- Whether something can have a name: there is a greatest number of bytes, and no byte is zero. -/
def isName (name : String) : Bool :=
  name.utf8ByteSize ≤ 255 && !name.contains '\x00'

/-- Whether a path is short enough to be looked up. -/
def isShort (path : String) : Bool :=
  path.utf8ByteSize < 4096

/-- Follows names from a place on. -/
def follow? (files : Files) (place : Place) : List String → Option Place
  | [] => some place
  | name :: more =>
    if !files.isDirectory place then none
    else if name = "" ∨ name = "." then files.follow? place more
    else if name = ".." then files.follow? (outside place) more
    else if isName name then files.follow? (place ++ [name]) more
    else none

/-- The place that a path leads to. The empty path leads nowhere. -/
def locate? (files : Files) (path : String) : Option Place :=
  if path.isEmpty ∨ !isShort path then none
  else
    let (start, names) := names path
    files.follow? start names

/-- What a path leads to. -/
def find? (files : Files) (path : String) : Option Entry :=
  (files.locate? path).bind files.entry?

/-- Whether a path leads to a directory or a file. -/
def contains (files : Files) (path : String) : Bool :=
  (files.find? path).isSome

/-- The text of the file that a path leads to. -/
def read? (files : Files) (path : String) : Option String :=
  match files.find? path with
  | some (.text content) => some content
  | _ => none

/-- Puts a file where a path leads, in a directory that exists and in place of the file there. -/
def write? (files : Files) (path : String) (file : Entry) : Option Files := do
  let place ← files.locate? path
  match files.entry? place with
  | some .directory => none
  | _ => return files.insert place file

/-- Follows names from a place on, and makes the directories that are missing. -/
def makeDirsFrom? (files : Files) (place : Place) : List String → Option Files
  | [] => some files
  | name :: more =>
    if name = "" ∨ name = "." then files.makeDirsFrom? place more
    else if name = ".." then files.makeDirsFrom? (outside place) more
    else if isName name then
      let next := place ++ [name]
      match files.entry? next with
      | some .directory => files.makeDirsFrom? next more
      | some _ => none
      | none => makeDirsFrom? (files.insert next .directory) next more
    else none

/-- Makes a directory and those around it, as far as they are missing. -/
def makeDirs? (files : Files) (path : String) : Option Files :=
  let (start, names) := names path
  if isShort path then files.makeDirsFrom? start names else none

/-- The names of the directories in the directory that a path leads to, in order. -/
def directoriesIn (files : Files) (path : String) : List String :=
  match files.locate? path with
  | none => []
  | some place =>
    if !files.isDirectory place then []
    else files.toList.filterMap fun (found, entry) =>
      match entry, found.getLast? with
      | .directory, some name => if found = place ++ [name] then some name else none
      | _, _ => none

/-- The paths on the way to where a path leads, its own last. -/
def way (path : String) : List String :=
  let names := path.toList.splitOn '/'
  (List.range names.length).map fun n => String.ofList (['/'].intercalate (names.take (n + 1)))

end Files

end ConceptSpace.Command
