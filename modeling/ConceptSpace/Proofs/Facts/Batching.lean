import Mathlib.Data.List.Infix
import ConceptSpace.Proofs.Facts.History

/-!
# Batches

Bulk reads and writes are cut into batches, and several lists are cut alike and put together again:
concepts with what is stored for them, counters with what they are raised by. None of this shows.
What a call comes to is stated without batches (`select_eq_filter`, `mark_eq`, `raised_eq_mapM`,
`reset_eq`), so that it depends on the name of the space only, and so do the answers to any calls in
turn and the store in the end (`runAll_spec`). This holds of all stores and concepts, also where a
call fails; on clean concepts none does.
-/

namespace ConceptSpace.FactBase

open Storage

/-! ## Calls -/

/-- A call of a fact base. -/
inductive Call where
  | add (cs : List Concept)
  | remove (cs : List Concept)
  | existing (cs : List Concept)
  | missing (cs : List Concept)
  | contains (c : Concept)
  | reset

/-- What a call returns. -/
inductive Answer where
  | facts (cs : List Concept)
  | removal (removal : Removal)
  | stored (present : Bool)
  | deleted (count : Nat)

namespace Call

/-- The concepts that a call names. -/
def concepts : Call → List Concept
  | .add cs | .remove cs | .existing cs | .missing cs => cs
  | .contains c => [c]
  | .reset => []

/-- Makes a call. -/
def run (base : FactBase) (s : Store) : Call → Except Error Answer × Store
  | .add cs =>
    ((base.add cs s.table).1.map .facts, { s with table := (base.add cs s.table).2 })
  | .remove cs => ((base.remove cs s).1.map .removal, (base.remove cs s).2)
  | .existing cs => (.ok (.facts (base.existing s.table cs)), s)
  | .missing cs => (.ok (.facts (base.missing s.table cs)), s)
  | .contains c => (.ok (.stored (FactBase.contains s.table c)), s)
  | .reset => ((base.reset s).1.map .deleted, (base.reset s).2)

/-- Makes calls one after the other, whatever comes of each. -/
def runAll (base : FactBase) (s : Store) : List Call → List (Except Error Answer) × Store
  | [] => ([], s)
  | call :: calls =>
    let (answer, next) := call.run base s
    let (answers, last) := runAll base next calls
    (answer :: answers, last)

end Call

/-! ## What does not depend on batches -/

section

variable (base base' : FactBase)

theorem select_congr : base.select = base'.select := by
  funext stored t cs
  rw [select_eq_filter, select_eq_filter]

theorem newFacts_congr : base.newFacts = base'.newFacts := by
  funext t cs
  unfold newFacts missing
  rw [select_congr base base']

theorem add_congr : base.add = base'.add := by
  funext cs t
  unfold add
  simp only [newFacts_congr base base', mark_eq, raised_eq_mapM, Table.foldl_putAll_batches]

variable {base base'} (same : base.space = base'.space)

include same

theorem detach_congr : base.detach = base'.detach := by
  funext cs s
  rw [detach, detach, same]

theorem remove_congr : base.remove = base'.remove := by
  funext cs s
  unfold remove
  rw [detach_congr same]

theorem reset_congr : base.reset = base'.reset := by
  funext s
  rw [reset_eq, reset_eq, detach_congr same]

namespace Call

theorem run_congr (s : Store) (call : Call) : call.run base s = call.run base' s := by
  cases call with
  | add cs => simp only [run, add_congr base base']
  | remove cs => simp only [run, remove_congr same]
  | existing cs => simp only [run, FactBase.existing, select_congr base base']
  | missing cs => simp only [run, FactBase.missing, select_congr base base']
  | contains c => rfl
  | reset => simp only [run, reset_congr same]

theorem runAll_congr (s : Store) (calls : List Call) :
    runAll base s calls = runAll base' s calls := by
  induction calls generalizing s with
  | nil => rfl
  | cons call calls ih => simp only [runAll, run_congr same, ih]

end Call

end

/-! ## Calls that succeed -/

/-- A call with clean concepts returns a value. -/
theorem Indexed.exists_answer {s : Store} {facts : Finset Concept} (h : Indexed s.table facts)
    (small : s.table.size < Text.wordCount) (texts : s.texts = ∅) (base : FactBase) {call : Call}
    (storable : ∀ c ∈ call.concepts, Storable c) :
    ∃ answer left, (call.run base s).1 = .ok answer ∧ (call.run base s).2.texts = ∅ ∧
      Indexed (call.run base s).2.table left := by
  have succeeds : ∀ {α : Type} {x : Except Error α} (f : α → Answer),
      x.map (fun _ => ()) = .ok () → ∃ answer, x.map f = .ok answer := by
    intro α x f ok
    cases x with
    | error e => cases ok
    | ok a => exact ⟨f a, rfl⟩
  have changed (change : Change) (storable : ∀ c ∈ change.concepts, Storable c) :=
    h.exists_run_eq small texts base storable
  cases call with
  | add cs =>
    obtain ⟨ok, texts, left, indexed, -⟩ := changed (.add cs) storable
    obtain ⟨answer, e⟩ := succeeds .facts ok
    exact ⟨answer, left, e, texts, indexed⟩
  | remove cs =>
    obtain ⟨ok, texts, left, indexed, -⟩ := changed (.remove cs) storable
    obtain ⟨answer, e⟩ := succeeds .removal ok
    exact ⟨answer, left, e, texts, indexed⟩
  | reset =>
    obtain ⟨ok, texts, left, indexed, -⟩ := changed .reset storable
    obtain ⟨answer, e⟩ := succeeds .deleted ok
    exact ⟨answer, left, e, texts, indexed⟩
  | existing | missing | contains => exact ⟨_, facts, rfl, texts, h⟩

theorem Indexed.exists_answers {s : Store} {facts : Finset Concept} (h : Indexed s.table facts)
    (texts : s.texts = ∅) (base : FactBase) {calls : List Call}
    (storable : ∀ call ∈ calls, ∀ c ∈ call.concepts, Storable c)
    (small : ∀ before, before <+: calls →
      (Call.runAll base s before).2.table.size < Text.wordCount) :
    ∃ answers : List Answer, (Call.runAll base s calls).1 = answers.map .ok := by
  induction calls generalizing s facts with
  | nil => exact ⟨[], rfl⟩
  | cons call calls ih =>
    obtain ⟨here, later⟩ := List.forall_mem_cons.mp storable
    obtain ⟨answer, left, e, texts, indexed⟩ :=
      h.exists_answer (small [] List.nil_prefix) texts base here
    obtain ⟨answers, rest⟩ := ih indexed texts later fun before hb =>
      small (call :: before) (List.cons_prefix_cons.mpr ⟨rfl, hb⟩)
    refine ⟨answer :: answers, ?_⟩
    change (call.run base s).1 :: (Call.runAll base (call.run base s).2 calls).1 = _
    rw [e, rest, List.map_cons]

/-! ## Main statement -/

/-- Whatever the size of the batches, calls in turn return the same and lead to the same store.
Calls with clean concepts return values, if they start from a store without data and there is always
a number for the entries. -/
theorem Call.runAll_spec (space : String) (size size' : Nat) (calls : List Call) :
    (∀ s, runAll ⟨space, size⟩ s calls = runAll ⟨space, size'⟩ s calls) ∧
    ∀ backend, (∀ call ∈ calls, ∀ c ∈ call.concepts, Storable c) →
      (∀ before, before <+: calls →
        (runAll ⟨space, size⟩ (Store.create backend) before).2.table.size < Text.wordCount) →
      ∃ answers : List Answer,
        (runAll ⟨space, size⟩ (Store.create backend) calls).1 = answers.map .ok := by
  have same : (FactBase.mk space size).space = (FactBase.mk space size').space := rfl
  refine ⟨fun s => runAll_congr same s calls, fun backend storable small => ?_⟩
  exact Indexed.exists_answers .empty rfl ⟨space, size⟩ storable small

/-- Calls that add a fact with parts, ask for it, and take it back. -/
private def roundTrip : List Call :=
  [.add [.compound [.atom "a", .atom "b"]], .missing [.atom "a", .atom "c"], .contains (.atom "b"),
    .remove [.atom "a"], .existing [.atom "a", .atom "b"], .reset]

theorem runAll_roundTrip :
    Call.runAll ⟨"home", 2⟩ (Store.create .memory) roundTrip =
        Call.runAll ⟨"home", 0⟩ (Store.create .memory) roundTrip ∧
      ∃ answers : List Answer,
        (Call.runAll ⟨"home", 2⟩ (Store.create .memory) roundTrip).1 = answers.map .ok := by
  obtain ⟨same, succeeds⟩ := Call.runAll_spec "home" 2 0 roundTrip
  refine ⟨same _, succeeds .memory ?_ fun before hb => ?_⟩
  · have leaves : ∀ word : String, word ∈ ["a", "b", "c"] → Storable (.atom word) := by
      intro word hw
      refine ⟨?_, ?_⟩ <;> revert word <;> decide +kernel
    have pair : Storable (.compound [.atom "a", .atom "b"]) :=
      ⟨by decide +kernel, by decide +kernel⟩
    simp [roundTrip, Call.concepts, pair, leaves]
  · have small : ∀ before ∈ roundTrip.inits,
        (Call.runAll ⟨"home", 2⟩ (Store.create .memory) before).2.table.size < Text.wordCount := by
      decide +kernel
    exact small before ((List.mem_inits before roundTrip).mpr hb)

end ConceptSpace.FactBase
