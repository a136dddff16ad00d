import ConceptSpace.Storage.Transaction

/-!
# Stores

A store holds the table of a space and the texts attached to its facts. It is kept in memory or in
a database; the kind decides how transactions run and what outlives a restart.
-/

namespace ConceptSpace.Storage

/-- Where a store is kept. -/
inductive Backend where
  /-- In memory, and lost at the end. -/
  | memory
  /-- In a database file. -/
  | durable
  deriving DecidableEq, Repr

/-- The name of a backend. -/
def Backend.name : Backend → String
  | .memory => "memory"
  | .durable => "redb"

/-- The data of a space. -/
structure Store where
  /-- Where the data is kept. -/
  backend : Backend
  /-- The facts and their index. -/
  table : Table := ∅
  /-- The attached texts. -/
  texts : Std.ExtTreeMap String String := ∅

namespace Store

/-- A store without data. -/
def create (backend : Backend) : Store :=
  { backend }

/-- Runs a transaction in the way of the backend. -/
def transact {ε α : Type} (s : Store) (program : Transaction ε α) : Except ε α × Store :=
  let (result, table) :=
    match s.backend with
    | .memory => program.runStaged s.table
    | .durable => program.runInPlace s.table
  (result, { s with table })

/-- The store after the program using it has ended and started again. -/
def reopen (s : Store) : Store :=
  match s.backend with
  | .memory => create .memory
  | .durable => s

end Store

end ConceptSpace.Storage
