import ConceptSpace.Proofs.Facts.Counting
import ConceptSpace.Proofs.Trigger.Growth
import ConceptSpace.Space.Basic

/-!
# The balance of an addition

The rounds of an addition report the facts that they have stored and how many they have deleted. A
fact may be stored, deleted and stored again by rounds of one addition; each round still reports just
what it does to the number of stored facts, so that the reports add up (`Space.add_balances`).
-/

namespace ConceptSpace

namespace FactBase

open Storage

variable {base : FactBase} {notifier : Notifier} {active : List Trigger} {cs : List Concept}
  {w w' : SpaceState}

/-- The number of stored facts after some rounds is the number before them, raised by what they
report as added and lowered by what they report as removed. -/
def Balances (w : SpaceState) (rounds : List Round) (w' : SpaceState) : Prop :=
  count w'.store.table + Round.totalRemoved rounds =
    count w.store.table + (Round.allAdded rounds).length

/-! ## One round -/

theorem count_changeTable_add {new : List Concept}
    (ok : Run.changeTable (base.add cs) w = (.ok new, w')) :
    count w'.store.table = count w.store.table + new.length := by
  obtain ⟨added, table⟩ := Run.eq_of_changeTable ok
  rw [table, count_add added]

/-- The start of a round stores the facts that it goes on with, and none if it is the last. -/
theorem count_openRound {result : Option Opening}
    (ok : base.openRound active cs w = (.ok result, w')) :
    count w'.store.table = count w.store.table + (result.elim 0 (·.facts.length)) := by
  obtain ⟨new, -, added, ⟨rfl, -, rfl⟩ | ⟨firings, changes, -, -, rfl⟩⟩ := exists_of_openRound rfl ok
  · exact count_changeTable_add added
  · exact count_changeTable_add added

theorem count_retract {facts : List Concept} {n : Nat}
    (ok : base.retract facts w = (.ok n, w')) :
    count w'.store.table + n = count w.store.table := by
  rw [retract] at ok
  split at ok
  · obtain ⟨rfl, rfl⟩ := Run.eq_of_pure ok
    rfl
  · obtain ⟨removal, v, removed, ok⟩ := Run.exists_of_bind ok
    obtain ⟨rfl, rfl⟩ := Run.eq_of_pure ok
    obtain ⟨result, rfl⟩ := Prod.mk.inj removed
    exact count_remove (Prod.ext result rfl)

/-- The end of a round deletes what it reports as removed, and stores what it reports as added
besides the facts of its start. -/
theorem count_closeRound {o : Opening} {round : Round}
    (ok : base.closeRound notifier o w = (.ok round, w')) :
    count w'.store.table + round.removed + o.facts.length =
      count w.store.table + round.added.length := by
  obtain ⟨removed, new, v, retracted, added, rfl⟩ := exists_of_closeRound ok
  have less := count_retract retracted
  have more := count_changeTable_add added
  simp only [List.length_append] at less ⊢
  omega

/-! ## All rounds -/

/-- The reports of rounds add up. -/
theorem Addition.balances {rounds : List Round}
    (run : Addition base notifier active cs w rounds w') : Balances w rounds w' := by
  -- The induction is on the rounds: between its start and its end, a round has the later ones.
  induction run with
  | nil => rfl
  | last opened =>
    have start := count_openRound opened
    simpa [Balances, Round.totalRemoved, Round.allAdded] using start
  | @around active cs w v u w' o round later opened inner closed ih =>
    have start := count_openRound opened
    have finish := count_closeRound closed
    simp only [Balances, Round.totalRemoved, Round.allAdded, List.foldr_cons, List.flatMap_cons,
      List.length_append, Option.elim_some] at ih start ⊢
    omega

theorem balances_of_addUnder {given : Option (List Trigger)} {rounds : List Round}
    (ok : base.addUnder notifier given cs w = (.ok rounds, w')) : Balances w rounds w' := by
  obtain empty | ⟨e, -, failed⟩ | ⟨active, -, same⟩ := addUnder_cases base notifier given cs w
  · obtain ⟨none, rfl⟩ := Prod.mk.inj (empty.symm.trans ok)
    obtain rfl := Except.ok.inj none
    rfl
  · cases (Prod.mk.inj (failed.symm.trans ok)).1
  · exact (addition_of_addRounds (same.symm.trans ok)).balances

end FactBase

/-! ## Main statement -/

namespace Space

open FactBase (Balances)

/-- Whatever a space holds, whatever is added to it and whatever triggers fire: if the addition
succeeds, the reports of its rounds add up to what it has done to the number of stored facts. This
holds for additions under given triggers, too. -/
theorem add_balances (s : Space) (cs : List Concept) (w w' : SpaceState) (rounds : List Round) :
    (s.add cs w = (.ok rounds, w') → Balances w rounds w') ∧
      ∀ active, s.base.addRounds s.notifier active cs w = (.ok rounds, w') →
        Balances w rounds w' :=
  ⟨fun ok => FactBase.balances_of_addUnder (show s.base.addUnder s.notifier none cs w = _ from ok),
    fun active ok =>
      FactBase.balances_of_addUnder (show s.base.addUnder s.notifier (some active) cs w = _ from ok)⟩

private def plainSpace : Space where
  id := "home"
  settings := {}

private def oldFact : Concept :=
  .compound [.atom "a", .atom "old"]

/-- A trigger that puts a new fact in the place of each old one. -/
private def renewing : Trigger where
  name := .atom "renewing"
  conditions := [.compound [.atom "$x", .atom "old"]]
  additions := [.compound [.atom "$x", .atom "new"]]
  removals := [.compound [.atom "$x", .atom "old"]]

private def noData : SpaceState :=
  ⟨Storage.Store.create .memory, []⟩

/-- The addition of an old fact under this trigger. -/
private def renewingRun : Except Error (List Round) × SpaceState :=
  plainSpace.base.addRounds plainSpace.notifier [renewing] [oldFact] noData

/-- Of the facts `a old`, `a`, `old`, `a new` and `new`, the first one is removed. -/
theorem renewingRun_balances :
    (∃ rounds w, plainSpace.add [oldFact] noData = (.ok rounds, w) ∧ Balances noData rounds w) ∧
      ∃ rounds w, renewingRun = (.ok rounds, w) ∧ Round.totalRemoved rounds = 1 ∧
        FactBase.count w.store.table = 4 := by
  constructor
  · have found : (FactBase.roundsOver 1 [] [oldFact] []).toOption.any (fun _ => true) = true := by
      decide +kernel
    obtain ⟨rounds, _, w, run, -⟩ := (FactBase.Shows.create .memory []).exists_comesTo_of_any 1
      found plainSpace.base plainSpace.notifier
    have ok : plainSpace.add [oldFact] noData = (.ok rounds, w) :=
      (FactBase.addAll_create _ _ _ _ _).trans run.addRounds_eq
    exact ⟨rounds, w, ok, (add_balances plainSpace [oldFact] noData w rounds).1 ok⟩
  · obtain ⟨rounds, w, ok, reported⟩ : ∃ rounds w, renewingRun = (.ok rounds, w) ∧
        decide (Round.totalRemoved rounds = 1 ∧ (Round.allAdded rounds).length = 5) = true :=
      FactBase.exists_addRounds_eq_of_any 3 (by decide +kernel)
    obtain ⟨removed, added⟩ := of_decide_eq_true reported
    have balances := (add_balances plainSpace [oldFact] noData w rounds).2 [renewing] ok
    have none : FactBase.count noData.store.table = 0 := by decide +kernel
    rw [Balances, removed, added, none] at balances
    exact ⟨rounds, w, ok, removed, by omega⟩

end Space

end ConceptSpace
