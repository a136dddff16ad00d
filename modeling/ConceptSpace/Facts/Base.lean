import ConceptSpace.Error
import ConceptSpace.Pattern.Mask
import ConceptSpace.Sequence.Batches
import ConceptSpace.Storage.Store

/-!
# The fact base

The facts of a space and what can be asked about them one by one. A fact is stored under its own
key, under one index entry for each mask that fits it, and under one containment edge for each of
its parts; a counter for each mask says how many entries it has.
-/

namespace ConceptSpace

open Storage

/-- How the facts of a space are kept. -/
structure FactBase where
  /-- The name of the space. -/
  space : String
  /-- The greatest number of keys in one bulk read or write; zero counts as one. -/
  batchSize : Nat
  deriving DecidableEq, Repr

/-- Which stored facts to list. -/
structure Page where
  /-- The concept key to start from. -/
  start : Option String := none
  /-- The concept key to stop before. -/
  stop : Option String := none
  /-- The greatest number of facts. -/
  limit : Option Nat := none
  deriving DecidableEq, Repr

namespace FactBase

/-! ## Single facts -/

/-- Whether a concept is a stored fact. -/
def contains (t : Table) (c : Concept) : Bool :=
  t.contains (Key.fact c)

/-- The concepts that are stored, or those that are not, in the order given. The table is asked in
batches. -/
def select (base : FactBase) (stored : Bool) (t : Table) (cs : List Concept) : List Concept :=
  let keys := cs.map Key.fact
  let batches := (Sequence.batches base.batchSize cs).zip (Sequence.batches base.batchSize keys)
  batches.flatMap fun (batch, keys) =>
    (batch.zip (t.getAll keys)).filterMap fun (c, value) =>
      if value.isSome == stored then some c else none

/-- The concepts that are stored. -/
def existing (base : FactBase) (t : Table) (cs : List Concept) : List Concept :=
  base.select true t cs

/-- The concepts that are not stored. -/
def missing (base : FactBase) (t : Table) (cs : List Concept) : List Concept :=
  base.select false t cs

/-- The stored fact with a key. -/
def get (t : Table) (key : String) : Except Error (Option Concept) := do
  let c ← liftSource (Source.ofKey key)
  return if contains t c then some c else none

/-! ## Listings -/

/-- The encoded form that a listing of facts compares with. -/
def Page.bound (key : String) : String :=
  Key.factStem ++ Key.encode key

/-- The listing of a page. -/
def Page.listing (p : Page) : Listing where
  stem := Key.factStem
  start := p.start.map Page.bound
  stop := p.stop.map Page.bound
  limit := p.limit

/-- The fact under a storage key. -/
def factOf (storageKey : String) : Except Error Concept := do
  let key ← liftStorage (Key.readFact storageKey)
  liftSource (Source.ofKey key)

/-- A page of stored facts, in the order of their storage keys. -/
def page (t : Table) (p : Page) : Except Error (List Concept) :=
  (t.listKeys (Page.listing p)).mapM factOf

/-- The number of stored facts. -/
def count (t : Table) : Nat :=
  (t.list { stem := Key.factStem }).length

/-- The concept around a part that an edge leads to. -/
def containerOf (storageKey : String) : Except Error Concept := do
  let edge ← liftStorage (Key.readContainment storageKey)
  liftSource (Source.ofKey edge.container)

/-- The stored facts that have a concept as a direct part. -/
def contexts (t : Table) (c : Concept) : Except Error (List Concept) := do
  let containers ← (t.listKeys { stem := Key.containmentsOf c }).mapM containerOf
  return Concept.distinct containers

/-! ## The mask index -/

/-- The count that a stored value holds; a missing value counts as zero. -/
def storedCount (value : Option Value) : Except Storage.Error UInt64 :=
  match value with
  | none => .ok 0
  | some bytes => Value.count? bytes

/-- The counter of a mask. -/
def maskCount (t : Table) (mask : Concept) : Except Error UInt64 :=
  liftStorage (storedCount t[Key.maskCount mask]?)

/-- The values of an index entry, in the order of the variables of its mask. -/
def valuesOf (storageKey : String) : Except Error (List Concept) := do
  let keys ← liftStorage (Key.readMaskMatch storageKey)
  keys.mapM fun key => liftSource (Source.ofKey key)

/-- The values of every index entry under a mask. -/
def maskEntries (t : Table) (mask : Concept) : Except Error (List (List Concept)) :=
  (t.listKeys { stem := Key.maskMatches mask }).mapM valuesOf

end FactBase

end ConceptSpace
