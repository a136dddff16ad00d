import ConceptSpace.Storage.Table

/-!
# Transactions

A transaction is a program that reads and writes one key at a time and may choose each step from
what it has read. It ends with a result or with an error.

It can be run in two ways. *Staged*, its writes are collected beside the table, its reads see them,
and they are applied at the end. *In place*, its writes go to a copy of the table, which replaces
the table at the end. Either way a transaction that ends with an error leaves the table alone.
-/

namespace ConceptSpace.Storage

/-- A program over a table that ends with an `α`, or with an error. -/
inductive Transaction (ε α : Type) where
  /-- The end. -/
  | done (result : Except ε α)
  /-- Reads the value under a key. -/
  | get (key : String) (next : Option Value → Transaction ε α)
  /-- Stores a value under a key. -/
  | put (key : String) (value : Value) (next : Transaction ε α)
  /-- Deletes a key; the program goes on with whether it was there. -/
  | delete (key : String) (next : Bool → Transaction ε α)

namespace Transaction

variable {ε α β : Type}

/-- Goes on with a second program after the first one. -/
def andThen (t : Transaction ε α) (next : α → Transaction ε β) : Transaction ε β :=
  match t with
  | .done (.ok a) => next a
  | .done (.error e) => .done (.error e)
  | .get key k => .get key fun value => (k value).andThen next
  | .put key value t => .put key value (t.andThen next)
  | .delete key k => .delete key fun existed => (k existed).andThen next

instance : Monad (Transaction ε) where
  pure a := .done (.ok a)
  bind := andThen

/-- Ends with an error. -/
def fail (e : ε) : Transaction ε α :=
  .done (.error e)

/-- Ends with a result that may be an error. -/
def ofExcept (result : Except ε α) : Transaction ε α :=
  .done result

/-- The value under a key. -/
def read (key : String) : Transaction ε (Option Value) :=
  .get key pure

/-- Stores a value under a key. -/
def write (key : String) (value : Value) : Transaction ε Unit :=
  .put key value (pure ())

/-- Deletes a key, and says whether it was there. -/
def remove (key : String) : Transaction ε Bool :=
  .delete key pure

/-! ## Staged -/

/-- Writes that are not applied yet; a key without a value is to be deleted. -/
abbrev Staged := Std.ExtTreeMap String (Option Value)

/-- What a transaction sees under a key. -/
def Staged.get (staged : Staged) (t : Table) (key : String) : Option Value :=
  match staged[key]? with
  | some value => value
  | none => t[key]?

/-- Applies the writes to a table. -/
def Staged.apply (staged : Staged) (t : Table) : Table :=
  staged.toList.foldl (fun t (key, value) =>
    match value with
    | some value => t.insert key value
    | none => t.erase key) t

/-- Runs a program with its writes set aside. -/
def runAside (t : Table) : Transaction ε α → Staged → Except ε (α × Staged)
  | .done result, staged => result.map (·, staged)
  | .get key next, staged => (next (staged.get t key)).runAside t staged
  | .put key value next, staged => next.runAside t (staged.insert key (some value))
  | .delete key next, staged =>
    (next (staged.get t key).isSome).runAside t (staged.insert key none)

/-- Runs a transaction, its writes applied at the end if it succeeds. -/
def runStaged (program : Transaction ε α) (t : Table) : Except ε α × Table :=
  match program.runAside t ∅ with
  | .ok (a, staged) => (.ok a, staged.apply t)
  | .error e => (.error e, t)

/-! ## In place -/

/-- Runs a program with its writes applied at once. -/
def runDirect : Transaction ε α → Table → Except ε α × Table
  | .done result, t => (result, t)
  | .get key next, t => (next t[key]?).runDirect t
  | .put key value next, t => next.runDirect (t.insert key value)
  | .delete key next, t => (next (t.contains key)).runDirect (t.erase key)

/-- Runs a transaction on a copy of the table, which is kept if it succeeds. -/
def runInPlace (program : Transaction ε α) (t : Table) : Except ε α × Table :=
  match program.runDirect t with
  | (.ok a, written) => (.ok a, written)
  | (.error e, _) => (.error e, t)

end Transaction

end ConceptSpace.Storage
