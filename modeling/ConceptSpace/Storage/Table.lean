import Std.Data.ExtTreeMap
import ConceptSpace.Storage.Value
import ConceptSpace.Storage.Key

/-!
# Tables and listings

A table maps keys to values, in the order of the keys. A *listing* asks for the entries under a
stem, from a first key on and before a last key, at most so many of them. It is answered by a scan:
the entries from the lower bound of the listing on are walked through in order, up to the first key
that is out of range.
-/

namespace ConceptSpace.Storage

/-- Keys with their values, in the order of the keys by code point. -/
abbrev Table := Std.ExtTreeMap String Value

/-- A request for a range of entries. -/
structure Listing where
  /-- What the keys have to start with. -/
  stem : String := ""
  /-- The key to start from. -/
  start : Option String := none
  /-- The key to stop before. -/
  stop : Option String := none
  /-- The greatest number of entries. -/
  limit : Option Nat := none
  deriving DecidableEq, Repr

namespace Listing

/-- Whether a key starts with the stem. -/
def isUnder (l : Listing) (key : String) : Bool :=
  l.stem.toList.isPrefixOf key.toList

/-- Whether a key is before the last key, if there is one. -/
def isBeforeStop (l : Listing) (key : String) : Bool :=
  match l.stop with
  | none => true
  | some stop => key < stop

/-- Whether a key is not before the first key, if there is one. -/
def isFromStart (l : Listing) (key : String) : Bool :=
  match l.start with
  | none => true
  | some start => start ≤ key

/-- Whether a key is in the range asked for, the limit aside. -/
def covers (l : Listing) (key : String) : Bool :=
  l.isUnder key && l.isFromStart key && l.isBeforeStop key

/-- The first key that can be in range. -/
def lowerBound (l : Listing) : String :=
  match l.start with
  | none => l.stem
  | some start => if l.stem < start then start else l.stem

/-- The first elements of a list, all of them without a limit. -/
def cut {α : Type} (limit : Option Nat) (entries : List α) : List α :=
  match limit with
  | none => entries
  | some n => entries.take n

end Listing

namespace Table

/-- The entries that a listing asks for, in the order of their keys. -/
def list (t : Table) (l : Listing) : List (String × Value) :=
  let fromBound := t.toList.dropWhile fun entry => entry.1 < l.lowerBound
  Listing.cut l.limit (fromBound.takeWhile fun entry => l.isUnder entry.1 && l.isBeforeStop entry.1)

/-- The keys that a listing asks for. -/
def listKeys (t : Table) (l : Listing) : List String :=
  (t.list l).map (·.1)

/-- Stores entries one after the other. -/
def putAll (t : Table) (entries : List (String × Value)) : Table :=
  entries.foldl (fun t (key, value) => t.insert key value) t

/-- Deletes keys one after the other, and counts those that were there. -/
def deleteAll (t : Table) : List String → Nat × Table
  | [] => (0, t)
  | key :: keys =>
    let (count, rest) := deleteAll (t.erase key) keys
    (if t.contains key then count + 1 else count, rest)

/-- The values under several keys. -/
def getAll (t : Table) (keys : List String) : List (Option Value) :=
  keys.map (t[·]?)

end Table

end ConceptSpace.Storage
