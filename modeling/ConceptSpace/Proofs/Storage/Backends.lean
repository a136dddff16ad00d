import ConceptSpace.Facts.Change
import ConceptSpace.Proofs.Storage.Bulk

/-!
# Both backends serve alike

A store in memory changes its table directly, and stages the writes of a transaction. A store in a
database makes each change a transaction of its own, whose writes go to the table at once and are
kept at the end or dropped. Whatever is asked of them, with each question depending on all that was
answered before, both give the same answers and end with the same table
(`converse_memory_eq_durable`).
-/

namespace ConceptSpace.Storage

variable {ε α : Type}

/-! ## What a transaction is told -/

/-- What a step of a transaction tells the program. -/
inductive Told where
  /-- The value under a key. -/
  | value (value : Option Value)
  /-- The value has been taken. -/
  | stored
  /-- Whether the deleted key was there. -/
  | existed (existed : Bool)
  deriving DecidableEq, Repr

namespace Transaction

/-- What a program is told while its writes are set aside. -/
def toldAside (t : Table) : Transaction ε α → Staged → List Told
  | .done _, _ => []
  | .get key next, staged =>
    .value (staged.get t key) :: (next (staged.get t key)).toldAside t staged
  | .put key value next, staged => .stored :: next.toldAside t (staged.insert key (some value))
  | .delete key next, staged =>
    .existed (staged.get t key).isSome ::
      (next (staged.get t key).isSome).toldAside t (staged.insert key none)

/-- What a program is told while its writes are applied at once. -/
def toldDirect : Transaction ε α → Table → List Told
  | .done _, _ => []
  | .get key next, t => .value t[key]? :: (next t[key]?).toldDirect t
  | .put key value next, t => .stored :: next.toldDirect (t.insert key value)
  | .delete key next, t =>
    .existed (t.contains key) :: (next (t.contains key)).toldDirect (t.erase key)

/-- A program cannot tell writes that are set aside from writes that are applied. -/
theorem toldAside_eq (program : Transaction ε α) (t : Table) (staged : Staged) :
    program.toldAside t staged = program.toldDirect (staged.apply t) := by
  induction program generalizing staged with
  | done result => rfl
  | get key next ih => rw [toldAside, toldDirect, ih, getElem?_apply]
  | put key value next ih => rw [toldAside, toldDirect, ih, apply_insert_some]
  | delete key next ih =>
    rw [toldAside, toldDirect, ih, apply_insert_none, Table.contains_eq_isSome, getElem?_apply]

/-! ## Changes as transactions -/

/-- Stores entries one after the other. -/
def writeAll : List (String × Value) → Transaction Storage.Error Unit
  | [] => pure ()
  | (key, value) :: entries => .put key value (writeAll entries)

theorem runDirect_writeAll (entries : List (String × Value)) (t : Table) :
    (writeAll entries).runDirect t = (.ok (), t.putAll entries) := by
  induction entries generalizing t with
  | nil => rfl
  | cons entry entries ih =>
    rw [writeAll, runDirect, ih, Table.putAll_cons]

theorem runDirect_deleteKeys_eq (keys : List String) (t : Table) :
    (FactBase.deleteKeys keys).runDirect t =
      (.ok (t.deleteAll keys).1, (t.deleteAll keys).2) := by
  induction keys generalizing t with
  | nil => rfl
  | cons key keys ih =>
    rw [FactBase.deleteKeys, runDirect_bind]
    change (FactBase.deleteKeys keys >>= _).runDirect (t.erase key) = _
    rw [runDirect_bind, ih]
    rfl

end Transaction

/-! ## Calls -/

/-- A call to a store. -/
inductive Call (ε α : Type) where
  /-- Asks for the value under a key. -/
  | get (key : String)
  /-- Asks for the values under several keys. -/
  | getAll (keys : List String)
  /-- Stores entries one after the other. -/
  | putAll (entries : List (String × Value))
  /-- Deletes keys one after the other. -/
  | deleteAll (keys : List String)
  /-- Asks for the entries of a listing. -/
  | list (listing : Listing)
  /-- Runs a transaction. -/
  | transact (program : Transaction ε α)

/-- The answer to a call. -/
inductive Reply (ε α : Type) where
  /-- The value under a key. -/
  | value (value : Option Value)
  /-- The values under several keys. -/
  | values (values : List (Option Value))
  /-- Entries have been stored. -/
  | stored (result : Except Storage.Error Unit)
  /-- How many of the keys were there. -/
  | deleted (result : Except Storage.Error Nat)
  /-- The entries of a listing. -/
  | entries (entries : List (String × Value))
  /-- How a transaction has ended, and what its program was told. -/
  | ended (result : Except ε α) (told : List Told)

/-- Serves a call from memory. -/
def serveMemory (t : Table) : Call ε α → Reply ε α × Table
  | .get key => (.value t[key]?, t)
  | .getAll keys => (.values (t.getAll keys), t)
  | .putAll entries => (.stored (.ok ()), t.putAll entries)
  | .deleteAll keys => (.deleted (.ok (t.deleteAll keys).1), (t.deleteAll keys).2)
  | .list listing => (.entries (t.list listing), t)
  | .transact program =>
    (.ended (program.runStaged t).1 (program.toldAside t ∅), (program.runStaged t).2)

/-- Serves a call from a database, where every change is a transaction. -/
def serveDurable (t : Table) : Call ε α → Reply ε α × Table
  | .get key => (.value t[key]?, t)
  | .getAll keys => (.values (t.getAll keys), t)
  | .putAll entries =>
    let (result, table) := (Transaction.writeAll entries).runInPlace t
    (.stored result, table)
  | .deleteAll keys =>
    let (result, table) := (FactBase.deleteKeys keys).runInPlace t
    (.deleted result, table)
  | .list listing => (.entries (t.list listing), t)
  | .transact program =>
    (.ended (program.runInPlace t).1 (program.toldDirect t), (program.runInPlace t).2)

/-- Serves a call in the way of a backend. -/
def serve : Backend → Table → Call ε α → Reply ε α × Table
  | .memory => serveMemory
  | .durable => serveDurable

/-- Serves calls one after the other. Each call may depend on the answers to those before it, which
are given in their order. -/
def converse (backend : Backend) (earlier : List (Reply ε α)) (t : Table) :
    List (List (Reply ε α) → Call ε α) → List (Reply ε α) × Table
  | [] => (earlier, t)
  | ask :: more =>
    let (reply, table) := serve backend t (ask earlier)
    converse backend (earlier ++ [reply]) table more

/-- One call gets the same answer from both backends, and leaves them with the same table. -/
theorem serveMemory_eq_serveDurable (t : Table) (call : Call ε α) :
    serveMemory t call = serveDurable t call := by
  cases call with
  | get key => rfl
  | getAll keys => rfl
  | putAll entries =>
    simp only [serveMemory, serveDurable, Transaction.runInPlace, Transaction.runDirect_writeAll]
  | deleteAll keys =>
    simp only [serveMemory, serveDurable, Transaction.runInPlace,
      Transaction.runDirect_deleteKeys_eq]
  | list listing => rfl
  | transact program =>
    rw [serveMemory, serveDurable, Transaction.runStaged_eq_runInPlace, Transaction.toldAside_eq,
      Transaction.apply_empty]

/-! ## Main statement -/

/-- Whatever table they start with and whatever is asked of them, both backends give the same
answers, also to the programs of transactions, and end with the same table. A transaction that fails
leaves the table as it was. -/
theorem converse_memory_eq_durable (t : Table) :
    (∀ calls : List (List (Reply ε α) → Call ε α),
      converse .memory [] t calls = converse .durable [] t calls) ∧
    ∀ (backend : Backend) (call : Call ε α) (e : ε) (told : List Told),
      (serve backend t call).1 = .ended (.error e) told → (serve backend t call).2 = t := by
  have alike : serve (ε := ε) (α := α) .memory = serve .durable :=
    funext fun t => funext fun call => serveMemory_eq_serveDurable t call
  have same : ∀ backend, serve (ε := ε) (α := α) backend = serveDurable := by
    rintro (_ | _)
    · exact alike
    · rfl
  refine ⟨fun calls => ?_, fun backend call e told ended => ?_⟩
  · generalize ([] : List (Reply ε α)) = earlier
    induction calls generalizing t earlier with
    | nil => rfl
    | cons ask more ih => simp only [converse, alike, ih]
  · rw [same] at ended ⊢
    cases call with
    | transact program =>
      injection ended with failed
      exact Transaction.runInPlace_of_error failed
    | get | getAll | putAll | deleteAll | list => cases ended

/-- A program that deletes a key, stores it again if it was there, and fails with what it then
reads. -/
private def undone : Transaction (Option Value) Unit :=
  .delete "a" fun existed =>
    if existed then .put "a" [2] (.get "a" fun value => .done (.error value))
    else .done (.ok ())

private def oneEntry : Table :=
  (∅ : Table).insert "a" [1]

/-- Asks for the key of a transaction that failed. -/
private def inquiries :
    List (List (Reply (Option Value) Unit) → Call (Option Value) Unit) :=
  [fun _ => .transact undone,
    fun earlier => match earlier with
      | [.ended (.error _) _] => .get "a"
      | _ => .deleteAll ["a"]]

/-- The program is told of its changes, and they are undone: both backends answer the second call
with the value from before the transaction. -/
theorem undone_leaves_oneEntry :
    (serve .memory oneEntry (.transact undone)).1 =
        .ended (.error (some [2])) [.existed true, .stored, .value (some [2])] ∧
      (serve .memory oneEntry (.transact undone)).2 = oneEntry ∧
      ∀ backend, converse backend [] oneEntry inquiries =
        ([.ended (.error (some [2])) [.existed true, .stored, .value (some [2])],
          .value (some [1])], oneEntry) := by
  have run : (serve .memory oneEntry (.transact undone)).1 =
      .ended (.error (some [2])) [.existed true, .stored, .value (some [2])] := by
    rfl
  obtain ⟨alike, undoes⟩ := converse_memory_eq_durable (ε := Option Value) (α := Unit) oneEntry
  have left := undoes .memory _ _ _ run
  have first : serve .memory oneEntry (.transact undone) =
      (.ended (.error (some [2])) [.existed true, .stored, .value (some [2])], oneEntry) :=
    Prod.ext run left
  have memory : converse .memory [] oneEntry inquiries =
      ([.ended (.error (some [2])) [.existed true, .stored, .value (some [2])],
        .value (some [1])], oneEntry) := by
    rw [inquiries, converse, first]
    rfl
  refine ⟨run, left, ?_⟩
  rintro (_ | _)
  · exact memory
  · exact (alike inquiries).symm.trans memory

end ConceptSpace.Storage
