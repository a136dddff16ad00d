import ConceptSpace.Proofs.Sequence.Insertions
import ConceptSpace.Sequence.Batches
import ConceptSpace.Storage.Store

/-!
# Bulk changes and transactions

What a table holds after entries have been stored or keys deleted one after the other, and that the
two ways to run a transaction end in the same table (`runStaged_eq_runInPlace`).
-/

namespace ConceptSpace.Storage

namespace Table

variable {t : Table} {key : String}

theorem getElem?_insert (t : Table) (key other : String) (value : Value) :
    (t.insert key value)[other]? = if key = other then some value else t[other]? := by
  simp [Std.ExtTreeMap.getElem?_insert]

theorem getElem?_erase (t : Table) (key other : String) :
    (t.erase key)[other]? = if key = other then none else t[other]? := by
  simp [Std.ExtTreeMap.getElem?_erase]

theorem contains_eq_isSome (t : Table) (key : String) : t.contains key = t[key]?.isSome :=
  Std.ExtTreeMap.contains_eq_isSome_getElem?

/-! ## Storing entries -/

theorem putAll_cons (t : Table) (key : String) (value : Value) (entries : List (String × Value)) :
    t.putAll ((key, value) :: entries) = putAll (t.insert key value) entries := rfl

theorem getElem?_putAll_of_not_mem {entries : List (String × Value)}
    (h : key ∉ entries.map (·.1)) : (t.putAll entries)[key]? = t[key]? :=
  Sequence.getElem?_foldl_insert_of_not_mem h

/-- A key that is stored with one value only has that value. -/
theorem getElem?_putAll_of_mem {entries : List (String × Value)} {value : Value}
    (h : (key, value) ∈ entries) (unique : ∀ v, (key, v) ∈ entries → v = value) :
    (t.putAll entries)[key]? = some value :=
  Sequence.getElem?_foldl_insert_of_mem h unique

theorem foldl_putAll_batches (t : Table) (size : Nat) (entries : List (String × Value)) :
    (Sequence.batches size entries).foldl Table.putAll t = t.putAll entries := by
  have h : ∀ (l : List (List (String × Value))) (t : Table),
      l.foldl Table.putAll t = t.putAll l.flatten := by
    intro l
    induction l with
    | nil => exact fun _ => rfl
    | cons batch l ih =>
      intro t
      rw [List.foldl_cons, ih, List.flatten_cons, putAll, putAll, putAll, List.foldl_append]
  rw [h, Sequence.flatten_batches]

/-! ## Deleting keys -/

/-- The table without some keys. -/
def eraseAll (t : Table) (keys : List String) : Table :=
  keys.foldl Std.ExtTreeMap.erase t

theorem eraseAll_cons (t : Table) (key : String) (keys : List String) :
    t.eraseAll (key :: keys) = eraseAll (t.erase key) keys := rfl

theorem getElem?_eraseAll (t : Table) (keys : List String) (key : String) :
    (t.eraseAll keys)[key]? = if key ∈ keys then none else t[key]? := by
  induction keys generalizing t with
  | nil => simp [eraseAll]
  | cons k keys ih =>
    rw [eraseAll_cons, ih, getElem?_erase]
    by_cases h : key ∈ keys
    · simp [h]
    · by_cases hk : k = key
      · simp [hk]
      · simp [h, hk, Ne.symm hk]

theorem deleteAll_snd (t : Table) (keys : List String) :
    (t.deleteAll keys).2 = t.eraseAll keys := by
  induction keys generalizing t with
  | nil => rfl
  | cons key keys ih => rw [deleteAll, ih, eraseAll_cons]

theorem deleteAll_append (t : Table) (keys more : List String) :
    t.deleteAll (keys ++ more) =
      ((t.deleteAll keys).1 + ((t.deleteAll keys).2.deleteAll more).1,
        ((t.deleteAll keys).2.deleteAll more).2) := by
  induction keys generalizing t with
  | nil => simp [deleteAll]
  | cons key keys ih =>
    simp only [List.cons_append, deleteAll, ih]
    split
    · rw [Nat.add_right_comm]
    · rfl

end Table

/-! ## Transactions -/

namespace Transaction

variable {ε α β : Type}

/-- One write of a stage, applied. -/
def Staged.applyEntry (t : Table) (entry : String × Option Value) : Table :=
  match entry.2 with
  | some value => t.insert entry.1 value
  | none => t.erase entry.1

theorem Staged.apply_eq (staged : Staged) (t : Table) :
    staged.apply t = staged.toList.foldl applyEntry t :=
  rfl

theorem getElem?_applyEntry (t : Table) (entry : String × Option Value) (key : String) :
    (Staged.applyEntry t entry)[key]? = if entry.1 = key then entry.2 else t[key]? := by
  obtain ⟨written, value⟩ := entry
  cases value with
  | some value => simp [Staged.applyEntry, Table.getElem?_insert]
  | none => simp [Staged.applyEntry, Table.getElem?_erase]

theorem getElem?_applyEntries_of_not_mem {entries : List (String × Option Value)} {key : String}
    (absent : key ∉ entries.map (·.1)) (t : Table) :
    (entries.foldl Staged.applyEntry t)[key]? = t[key]? := by
  induction entries generalizing t with
  | nil => rfl
  | cons entry entries ih =>
    simp only [List.map_cons, List.mem_cons, not_or] at absent
    rw [List.foldl_cons, ih absent.2, getElem?_applyEntry, if_neg (Ne.symm absent.1)]

theorem getElem?_applyEntries_of_mem {entries : List (String × Option Value)} {key : String}
    {value : Option Value} (distinct : entries.Pairwise fun a b => a.1 ≠ b.1)
    (present : (key, value) ∈ entries) (t : Table) :
    (entries.foldl Staged.applyEntry t)[key]? = value := by
  induction entries generalizing t with
  | nil => simp at present
  | cons entry entries ih =>
    obtain ⟨first, distinct⟩ := List.pairwise_cons.mp distinct
    rw [List.foldl_cons]
    rcases List.mem_cons.mp present with rfl | present
    · have absent : key ∉ entries.map (·.1) := by
        intro hm
        obtain ⟨other, ho, e⟩ := List.mem_map.mp hm
        exact first other ho e.symm
      rw [getElem?_applyEntries_of_not_mem absent, getElem?_applyEntry, if_pos rfl]
    · exact ih distinct present _

/-- What a staged deletion or value amounts to. -/
theorem getElem?_apply (staged : Staged) (t : Table) (key : String) :
    (staged.apply t)[key]? = staged.get t key := by
  have distinct : staged.toList.Pairwise fun a b => a.1 ≠ b.1 :=
    staged.distinct_keys_toList.imp fun h e => h (by simp [e])
  rw [Staged.apply_eq]
  unfold Staged.get
  cases e : staged[key]? with
  | some value =>
    have present : (key, value) ∈ staged.toList :=
      Std.ExtTreeMap.mem_toList_iff_getElem?_eq_some.mpr e
    exact getElem?_applyEntries_of_mem distinct present t
  | none =>
    have absent : key ∉ staged.toList.map (·.1) := by
      rw [Std.ExtTreeMap.map_fst_toList_eq_keys, Std.ExtTreeMap.mem_keys,
        Std.ExtTreeMap.mem_iff_isSome_getElem?, e]
      simp
    exact getElem?_applyEntries_of_not_mem absent t

theorem apply_empty (t : Table) : Staged.apply ∅ t = t := by
  ext1 key
  simp [getElem?_apply, Staged.get]

/-- Staging one more value is storing it when the others are applied. -/
theorem apply_insert_some (staged : Staged) (t : Table) (key : String) (value : Value) :
    Staged.apply (staged.insert key (some value)) t = (staged.apply t).insert key value := by
  ext1 other
  simp only [getElem?_apply, Staged.get, Std.ExtTreeMap.getElem?_insert, Std.compare_eq_iff_eq]
  by_cases same : key = other <;> simp [same]

/-- Staging one more deletion is deleting the key when the others are applied. -/
theorem apply_insert_none (staged : Staged) (t : Table) (key : String) :
    Staged.apply (staged.insert key none) t = (staged.apply t).erase key := by
  ext1 other
  simp only [Table.getElem?_erase, getElem?_apply, Staged.get, Std.ExtTreeMap.getElem?_insert,
    Std.compare_eq_iff_eq]
  by_cases same : key = other <;> simp [same]

/-- Running with the writes set aside ends as running with the writes applied at once does. -/
theorem runAside_eq (program : Transaction ε α) (t : Table) (staged : Staged) :
    (∀ a after, program.runAside t staged = .ok (a, after) →
        program.runDirect (staged.apply t) = (.ok a, after.apply t)) ∧
      ∀ e, program.runAside t staged = .error e →
        (program.runDirect (staged.apply t)).1 = .error e := by
  induction program generalizing staged with
  | done result => cases result <;> simp [runAside, runDirect, Except.map]
  | get key next ih =>
    simp only [runAside, runDirect, getElem?_apply]
    exact ih _ staged
  | put key value next ih =>
    simp only [runAside, runDirect, ← apply_insert_some]
    exact ih _
  | delete key next ih =>
    simp only [runAside, runDirect, ← apply_insert_none, Table.contains_eq_isSome, getElem?_apply]
    exact ih _ _

/-- Both ways to run a transaction have the same result and end in the same table. -/
theorem runStaged_eq_runInPlace (program : Transaction ε α) (t : Table) :
    program.runStaged t = program.runInPlace t := by
  obtain ⟨ok, error⟩ := runAside_eq program t ∅
  rw [apply_empty] at ok error
  unfold runStaged runInPlace
  cases e : program.runAside t ∅ with
  | ok result => rw [ok result.1 result.2 e]
  | error fault =>
    have h := error fault e
    cases r : program.runDirect t with
    | mk result table =>
      rw [r] at h
      subst h
      rfl

/-- A transaction on a copy of the table that fails leaves the table alone. -/
theorem runInPlace_of_error {program : Transaction ε α} {t : Table} {e : ε}
    (failed : (program.runInPlace t).1 = .error e) : (program.runInPlace t).2 = t := by
  unfold runInPlace at failed ⊢
  split
  case h_1 ok => rw [ok] at failed; cases failed
  case h_2 => rfl

theorem runDirect_bind (program : Transaction ε α) (next : α → Transaction ε β) (t : Table) :
    (program >>= next).runDirect t =
      match program.runDirect t with
      | (.ok a, t) => (next a).runDirect t
      | (.error e, t) => (.error e, t) := by
  change (program.andThen next).runDirect t = _
  induction program generalizing t with
  | done result => cases result <;> rfl
  | get key k ih => exact ih _ t
  | put key value k ih => exact ih _
  | delete key k ih => exact ih _ _

end Transaction

/-- A transaction runs on the table of a store, and leaves it alone if it fails. -/
theorem Store.transact_eq {ε α : Type} (s : Store) (program : Transaction ε α) :
    s.transact program =
      ((program.runInPlace s.table).1, { s with table := (program.runInPlace s.table).2 }) := by
  unfold transact
  cases s.backend <;> simp [Transaction.runStaged_eq_runInPlace]

end ConceptSpace.Storage
