import ConceptSpace.Space.Location
import ConceptSpace.Space.Settings
import ConceptSpace.Storage.Error

/-!
# Faults of a space

Everything that can go wrong when a space is used.
-/

namespace ConceptSpace

/-- A fault of a space. -/
inductive Error where
  /-- A fault of source text, or of a stored key read as source text. -/
  | source (e : Source.Error)
  /-- A fault of the storage. -/
  | storage (e : Storage.Error)
  /-- A trigger is defined under the name of another one. -/
  | duplicateTrigger (name : String)
  /-- No fault, but the outcome of rounds that never end. No run comes to it: where the rounds have
  no end, the run has none. -/
  | endlessRounds
  /-- Likewise, the outcome of a query that never ends. -/
  | endlessQuery
  /-- A fault of the settings. -/
  | settings (e : Settings.Error)
  /-- A fault of the location. -/
  | location (e : Location.Error)
  /-- A text is to be attached to a concept that is not stored. -/
  | conceptNotFound (key : String)
  deriving DecidableEq, Repr

namespace Error

/-- The explanation of a fault. -/
def diagnostic : Error → Diagnostic
  | .source e => e.diagnostic
  | .storage e => e.diagnostic
  | .duplicateTrigger name =>
    ⟨"a trigger named \"" ++ name ++ "\" already exists", "coeng::trigger::duplicate",
      some ("Trigger names are unique within a space. Remove the existing trigger's " ++
        "component facts first, or pick a different name.")⟩
  | .endlessRounds => ⟨"triggers fire for ever", "coeng::trigger::endless", none⟩
  | .endlessQuery => ⟨"a query goes on for ever", "coeng::match::endless", none⟩
  | .settings e => e.diagnostic
  | .location e => e.diagnostic
  | .conceptNotFound key =>
    ⟨"concept not found: \"" ++ key ++ "\"", "coeng::space::concept_not_found",
      some "Data can only be attached to stored facts. Add the concept first."⟩

/-- The message of a fault. -/
def message (e : Error) : String :=
  e.diagnostic.message

end Error

/-- A result of source text as a result of a space. -/
def liftSource {α : Type} (result : Except Source.Error α) : Except Error α :=
  result.mapError .source

/-- A result of the storage as a result of a space. -/
def liftStorage {α : Type} (result : Except Storage.Error α) : Except Error α :=
  result.mapError .storage

end ConceptSpace
