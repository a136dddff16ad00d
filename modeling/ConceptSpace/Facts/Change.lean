import ConceptSpace.Facts.Base

/-!
# Adding and removing facts

Adding a fact stores it together with everything inside it. Removing a fact removes every stored
fact that it is part of, however deep. Removal changes the table in one transaction, so that it
happens as a whole or not at all; adding writes batch after batch, and what was written before an
undecodable counter is met stays.
-/

namespace ConceptSpace.FactBase

open Storage

/-- The index entries of a fact, each with the counter of its mask. -/
def indexEntries (c : Concept) : List (String × String) :=
  c.masks.filterMap fun mask =>
    (c.maskValues? mask).map fun values => (Key.maskCount mask, Key.maskMatch mask values)

/-- How often each key occurs in a list, in the order of the keys. -/
def tally (keys : List String) : List (String × UInt64) :=
  (keys.foldl (fun (counts : Std.ExtTreeMap String UInt64) key =>
    counts.insert key (counts.getD key 0 + 1)) ∅).toList

/-! ## Adding -/

/-- Stores the mark of presence under some keys, in batches. -/
def mark (base : FactBase) (t : Table) (keys : List String) : Table :=
  (Sequence.batches base.batchSize (keys.map (·, Value.marker))).foldl Table.putAll t

/-- The entries that raise counters by the amounts given. -/
def raised (base : FactBase) (t : Table) (amounts : List (String × UInt64)) :
    Except Storage.Error (List (String × Value)) := do
  let (keys, raises) := amounts.unzip
  let batches := (Sequence.batches base.batchSize keys).zip (Sequence.batches base.batchSize raises)
  let entries ← batches.mapM fun (keys, raises) =>
    ((keys.zip raises).zip (t.getAll keys)).mapM fun ((key, amount), value) => do
      return (key, Value.ofCount ((← storedCount value) + amount))
  return entries.flatten

/-- The facts that adding some concepts makes new: those of the concepts that are not stored yet,
then what is inside them and not stored either. -/
def newFacts (base : FactBase) (t : Table) (cs : List Concept) : List Concept :=
  let roots := base.missing t (Concept.distinct cs)
  if roots.isEmpty then []
  else Concept.distinct (roots ++ base.missing t (Concept.deepParts roots))

/-- Adds concepts and everything inside them; the result lists the facts that are new. -/
def add (base : FactBase) (cs : List Concept) (t : Table) : Except Error (List Concept) × Table :=
  let added := base.newFacts t cs
  if added.isEmpty then (.ok [], t)
  else
    let entries := added.flatMap indexEntries
    let t := base.mark t (added.map Key.fact)
    let t := base.mark t (entries.map (·.2))
    match base.raised t (tally (entries.map (·.1))) with
    | .error e => (.error (.storage e), t)
    | .ok counts =>
      let t := (Sequence.batches base.batchSize counts).foldl Table.putAll t
      (.ok added, base.mark t (added.flatMap Key.containments))

/-! ## Removing -/

/-- What a removal has deleted. -/
structure Removal where
  /-- The facts that were found to be removed, in the order in which they were found. -/
  removed : List Concept
  /-- How many fact keys were deleted. -/
  count : Nat

/-- The stored facts among some concepts and, depth first, the stored facts around them. `pending`
holds the entries of the table whose facts have not been found yet; an entry is taken out when its
fact is found, which is why the search ends. -/
def upward (t pending : Table) (stack : List Concept) : Except Error (List Concept) :=
  match _first : stack.dropWhile fun c => !contains pending c with
  | [] => .ok []
  | c :: rest => do
    let around ← contexts t c
    let more ← upward t (pending.erase (Key.fact c)) (around.reverse ++ rest)
    return c :: more
termination_by pending.size
decreasing_by
  have found : contains pending c = true := by
    have := List.head?_dropWhile_not (fun c => !contains pending c) stack
    simpa [_first] using this
  have present : pending.contains (Key.fact c) = true := found
  have nonempty : pending.size ≠ 0 := by
    intro empty
    rw [Std.ExtTreeMap.eq_empty_iff_size_eq_zero.mpr empty] at present
    simp at present
  rw [Std.ExtTreeMap.size_erase, if_pos present]
  omega

/-- The facts that removing some concepts removes. -/
def doomed (t : Table) (cs : List Concept) : Except Error (List Concept) :=
  upward t t (Concept.distinct cs)

/-- Deletes keys, and counts those that were there. -/
def deleteKeys : List String → Transaction Storage.Error Nat
  | [] => pure 0
  | key :: keys => do
    let existed ← Transaction.remove key
    let count ← deleteKeys keys
    return if existed then count + 1 else count

/-- Lowers counters by the amounts given; a counter that comes to zero is deleted. -/
def lowerCounts : List (String × UInt64) → Transaction Storage.Error Unit
  | [] => pure ()
  | (key, amount) :: amounts => do
    let stored ← Transaction.read key
    let current ← Transaction.ofExcept (storedCount stored)
    if current ≤ amount then
      let _ ← Transaction.remove key
      lowerCounts amounts
    else
      Transaction.write key (Value.ofCount (current - amount))
      lowerCounts amounts

/-- The transaction that removes facts, and counts the fact keys that were there. -/
def removal (facts : List Concept) : Transaction Storage.Error Nat := do
  let entries := facts.flatMap indexEntries
  let _ ← deleteKeys (entries.map (·.2) ++ facts.flatMap Key.containments)
  lowerCounts (tally (entries.map (·.1)))
  deleteKeys (facts.map Key.fact)

/-- Deletes the texts attached to facts. -/
def detach (base : FactBase) (facts : List Concept) (s : Store) : Store :=
  { s with texts := facts.foldl (fun texts c => texts.erase (Key.attached base.space c)) s.texts }

/-- Removes concepts, the stored facts around them, and the texts attached to these. -/
def remove (base : FactBase) (cs : List Concept) (s : Store) : Except Error Removal × Store :=
  match doomed s.table cs with
  | .error e => (.error e, s)
  | .ok facts =>
    match s.transact (removal facts) with
    | (.error e, s) => (.error (.storage e), s)
    | (.ok count, s) => (.ok ⟨facts, count⟩, base.detach facts s)

/-! ## Starting over -/

/-- Deletes keys in batches, and counts those that were there. -/
def deleteBatches (t : Table) : List (List String) → Nat × Table
  | [] => (0, t)
  | batch :: batches =>
    let (count, t) := t.deleteAll batch
    let (more, t) := deleteBatches t batches
    (count + more, t)

/-- Deletes every key, and the text of every stored fact. The result is the number of keys. -/
def reset (base : FactBase) (s : Store) : Except Error Nat × Store :=
  match page s.table {} with
  | .error e => (.error e, s)
  | .ok facts =>
    let s := base.detach facts s
    let keys := s.table.listKeys {}
    let (count, table) := deleteBatches s.table (Sequence.batches base.batchSize keys)
    (.ok count, { s with table })

end ConceptSpace.FactBase
