import ConceptSpace.Space.Settings
import ConceptSpace.Toml.Document

/-!
# Files of settings

Settings are kept as a TOML document, one name for each setting. Settings that are left out have
their defaults, and names that are not known are passed over.
-/

namespace ConceptSpace.Settings

/-- The number of an item, if it is one and not negative. -/
def natural? : Toml.Item → Option Nat
  | .integer (.ofNat n) => some n
  | _ => none

/-- The truth value of an item, if it is one. -/
def flag? : Toml.Item → Option Bool
  | .flag b => some b
  | _ => none

/-- The text of an item, if it is one. -/
def text? : Toml.Item → Option String
  | .text s => some s
  | _ => none

/-- Takes over a named item; `none` if the item is not of the kind that its setting needs. -/
def assign? (s : Settings) (name : String) (item : Toml.Item) : Option Settings :=
  if name = "data_dir" then (text? item).map fun dir => { s with dataDir := some dir }
  else if name = "batch_size" then (natural? item).map fun n => { s with batchSize := n }
  else if name = "notifications" then (flag? item).map fun b => { s with notifications := b }
  else if name = "notify_timeout_secs" then
    (natural? item).map fun n => { s with notifyTimeout := n }
  else if name = "page_limit" then (natural? item).map fun n => { s with pageLimit := n }
  else some s

/-- The settings that a document states; `none` if it is malformed. -/
def ofDocument? (source : String) : Option Settings := do
  let entries ← Toml.document? source
  entries.foldlM (fun s (name, item) => s.assign? name item) {}

/-- The settings that the document of a file states, which have to be in range. -/
def ofSource (path source : String) : Except Error Settings :=
  match ofDocument? source with
  | none => .error (.malformed path)
  | some s => s.validate.map fun _ => s

example : (ofDocument? "batch_size = 7 # keys").map (·.batchSize) = some 7 := by decide +kernel
example : ofDocument? "batch_size = 1.5" = none := by decide +kernel

end ConceptSpace.Settings
