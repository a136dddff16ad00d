import ConceptSpace.Source.Error

/-!
# Where spaces are kept

The directories for configuration and data, found from the environment by the XDG rules or given by
the user, and the paths below them. Paths are text: joining them does not look at the file system
and simplifies nothing.
-/

namespace ConceptSpace

/-- Continues a path. A path from the root replaces what is before it, and a separator is put in
only where there is none. -/
def joinPath (base path : String) : String :=
  if path.toList.head? = some '/' then path
  else if base.isEmpty || base.toList.getLast? = some '/' then base ++ path
  else base ++ "/" ++ path

/-- The directories of all spaces. -/
structure Location where
  /-- The directory of the file of settings. -/
  configDir : String
  /-- The directory of the data. -/
  dataDir : String
  deriving DecidableEq, Repr

/-- The part of the environment that directories are found from. -/
structure Environment where
  /-- The home directory. -/
  home : Option String := none
  /-- The directory of the user's configuration, if it is not the usual one. -/
  configHome : Option String := none
  /-- The directory of the user's data, if it is not the usual one. -/
  dataHome : Option String := none

namespace Location

/-- A fault of a location. -/
inductive Error where
  /-- The home directory is not known. -/
  | noHome
  /-- A name that cannot be the name of a space. -/
  | invalidSpace (name : String)
  deriving DecidableEq, Repr

namespace Error

/-- The message of a fault. -/
def message : Error → String
  | .noHome => "cannot determine home directory"
  | .invalidSpace name => "invalid space name: \"" ++ name ++ "\""

/-- The diagnostic code of a fault. -/
def code : Error → String
  | .noHome => "coeng::paths::no_home"
  | .invalidSpace _ => "coeng::paths::invalid_space"

/-- The advice for a fault. -/
def help : Error → String
  | .noHome => "Set the HOME environment variable, or pass --data-dir explicitly."
  | .invalidSpace _ =>
    "Space names may contain letters, digits, '-', '_' and '.', and must not start with '.'."

/-- The explanation of a fault. -/
def diagnostic (e : Error) : Diagnostic :=
  ⟨e.message, e.code, some e.help⟩

end Error

/-- The directories that the environment asks for. The home directory has to be known even where it
is not used. -/
def ofEnvironment (env : Environment) : Except Error Location :=
  match env.home with
  | none => .error .noHome
  | some home =>
    .ok {
      configDir := joinPath (env.configHome.getD (joinPath home ".config")) "coeng"
      dataDir := joinPath (env.dataHome.getD (joinPath home ".local/share")) "coeng" }

/-- One directory for everything. -/
def ofDirectory (dir : String) : Location :=
  ⟨dir, dir⟩

/-- The file of settings. -/
def settingsFile (l : Location) : String :=
  joinPath l.configDir "config.toml"

/-- The directory that holds a directory for each space. -/
def spacesDir (l : Location) : String :=
  joinPath l.dataDir "spaces"

/-- The characters that names of spaces are made of. -/
def isNameChar (c : Char) : Bool :=
  c.isAlphanum || c == '-' || c == '_' || c == '.'

/-- Whether a text can be the name of a space. -/
def isSpaceName (name : String) : Bool :=
  !name.isEmpty && name.toList.head? != some '.' && name.toList.all isNameChar

/-- The directory of one space. -/
def spaceDir (l : Location) (name : String) : Except Error String :=
  if isSpaceName name then .ok (joinPath l.spacesDir name) else .error (.invalidSpace name)

end Location

/-- The name of the database file in the directory of a space. -/
def databaseFile : String := "coeng.redb"

end ConceptSpace
