import ConceptSpace.Source.Error

/-!
# Faults of the storage

What can be wrong with stored keys and values, and with the place where they are kept.
-/

namespace ConceptSpace.Storage

/-- A fault of the storage. -/
inductive Error where
  /-- The place of a durable store cannot be used. -/
  | unavailable (place : String)
  /-- Bytes that are not the form of a value. -/
  | undecodable
  /-- A storage key that names no concept. -/
  | malformedKey (key : String)
  deriving DecidableEq, Repr

namespace Error

/-- The message of a fault. -/
def message : Error → String
  | .unavailable place => "redb transaction error: failed to open redb at " ++ place
  | .undecodable => "serialization error: failed to decode value"
  | .malformedKey key => "malformed storage key: " ++ key

/-- The diagnostic code of a fault. -/
def code : Error → String
  | .unavailable _ => "coeng::store::redb"
  | .undecodable => "coeng::store::serde"
  | .malformedKey _ => "coeng::store::encoding"

/-- The advice for a fault. -/
def help : Error → String
  | .unavailable _ =>
    "The embedded database encountered a transaction error. " ++
      "If it keeps happening, move the space directory aside and re-add your facts."
  | .undecodable =>
    "A stored value could not be encoded or decoded. " ++
      "The space was probably written by an incompatible version."
  | .malformedKey _ =>
    "A storage key could not be decoded back into a concept. " ++
      "Keys are written by coeng only; editing the database by hand breaks them."

/-- The explanation of a fault. -/
def diagnostic (e : Error) : Diagnostic :=
  ⟨e.message, e.code, some e.help⟩

end Error

end ConceptSpace.Storage
