import ConceptSpace.Source.Error
import ConceptSpace.Text.Quoted

/-!
# Settings of a space

How a space is kept and how much it does at a time, with the defaults and the limits of each
setting.
-/

namespace ConceptSpace

/-- The settings of one space. -/
structure Settings where
  /-- Where the database is kept; without it the space is in memory. -/
  dataDir : Option String := none
  /-- The greatest number of keys in one bulk read or write. -/
  batchSize : Nat := 128
  /-- Whether notifications are delivered. -/
  notifications : Bool := true
  /-- How many seconds a delivery may take. -/
  notifyTimeout : Nat := 10
  /-- The length of a listing that gives no limit. -/
  pageLimit : Nat := 100
  deriving DecidableEq, Repr

namespace Settings

/-- A fault of the settings. -/
inductive Error where
  /-- Batches without room for a key. -/
  | zeroBatchSize
  /-- Pages without room for a fact. -/
  | zeroPageLimit
  /-- Deliveries that may take no time. -/
  | zeroNotifyTimeout
  /-- A file of settings that cannot be read. -/
  | unreadable (path : String)
  /-- A file of settings that is not of the right form. -/
  | malformed (path : String)
  deriving DecidableEq, Repr

namespace Error

/-- The setting that is out of range, and what is asked of it. -/
def requirement : Error → Option String
  | .zeroBatchSize => some "batch_size must be at least 1"
  | .zeroPageLimit => some "page_limit must be at least 1"
  | .zeroNotifyTimeout => some "notify_timeout_secs must be at least 1 when notifications are on"
  | _ => none

/-- The message of a fault. -/
def message : Error → String
  | .unreadable path => "failed to read config file " ++ path
  | .malformed path => "failed to parse config file " ++ path
  | e => "invalid configuration: " ++ e.requirement.getD ""

/-- The diagnostic code of a fault. -/
def code : Error → String
  | .unreadable _ => "coeng::space::config_read"
  | .malformed _ => "coeng::space::config_parse"
  | _ => "coeng::space::invalid_config"

/-- The advice for a fault. -/
def help : Error → String
  | .unreadable _ => "Ensure the config file exists and is readable."
  | .malformed _ =>
    "The config file must be valid TOML. Known keys: data_dir, batch_size, " ++
      "notifications, notify_timeout_secs, page_limit."
  | e => "Check the SpaceConfig fields. " ++ e.requirement.getD ""

/-- The explanation of a fault. -/
def diagnostic (e : Error) : Diagnostic :=
  ⟨e.message, e.code, some e.help⟩

end Error

/-- Checks that every setting is in range; the first that is not is reported. -/
def validate (s : Settings) : Except Error Unit :=
  if s.batchSize = 0 then .error .zeroBatchSize
  else if s.pageLimit = 0 then .error .zeroPageLimit
  else if s.notifications && s.notifyTimeout == 0 then .error .zeroNotifyTimeout
  else .ok ()

/-- A truth value in words. -/
def flagText (b : Bool) : String :=
  if b then "true" else "false"

/-- The settings on one line. -/
def describe (s : Settings) : String :=
  let dir := match s.dataDir with
    | none => "None"
    | some dir => "Some(" ++ Text.Quoted.quote dir ++ ")"
  "SpaceConfig \x7b data_dir: " ++ dir ++ ", batch_size: " ++ toString s.batchSize ++
    ", notifications: " ++ flagText s.notifications ++ ", notify_timeout_secs: " ++
    toString s.notifyTimeout ++ ", page_limit: " ++ toString s.pageLimit ++ " \x7d"

end Settings

end ConceptSpace
