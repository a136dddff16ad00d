import ConceptSpace.Proofs.Trigger.Bound
import ConceptSpace.Proofs.Trigger.Outcomes

/-!
# What rounds keep

A run *keeps* an invariant of stores if the store has it after the run, whatever becomes of the run
(`Run.Keeps`). The invariants here are of stores with clean facts, and additions of clean concepts
and removals keep them (`IsKept`). Then the start and the end of a round keep them too
(`IsKept.openRound`, `IsKept.closeRound`), and so do all rounds (`IsKept.addRounds`), even if they
fail. That the facts are clean is such an invariant itself (`IsClean.isKept`).
-/

namespace ConceptSpace

open Sequence (Gives)

namespace Run

open Storage

variable {α β : Type} {inv : Store → Prop} {P : α → Prop} {Q : β → Prop}

/-- A run that keeps an invariant of the store, whether it succeeds or not, and whose result has a
property if it succeeds. -/
def Keeps (inv : Store → Prop) (x : Run α) (P : α → Prop) : Prop :=
  ∀ w : SpaceState, inv w.store → inv (x w).2.store ∧ Gives (x w).1 P

namespace Keeps

theorem pure {a : α} (h : P a) : Keeps inv (pure a : Run α) P :=
  fun _ hw => ⟨hw, .ok h⟩

theorem throw (e : Error) : Keeps inv (throw e : Run α) P :=
  fun _ hw => ⟨hw, by rintro _ ⟨⟩⟩

theorem mono {x : Run α} {P' : α → Prop} (h : Keeps inv x P) (imp : ∀ a, P a → P' a) :
    Keeps inv x P' :=
  fun w hw => ⟨(h w hw).1, (h w hw).2.mono imp⟩

theorem bind {x : Run α} {f : α → Run β} (hx : Keeps inv x P)
    (hf : ∀ a, P a → Keeps inv (f a) Q) : Keeps inv (x >>= f) Q := by
  intro w hw
  obtain ⟨kept, gives⟩ := hx w hw
  rw [bind_apply]
  rcases step : x w with ⟨e | a, v⟩ <;> rw [step] at kept gives
  · exact ⟨kept, by rintro _ ⟨⟩⟩
  · exact hf a (gives a rfl) v kept

theorem ask {query : Table → Except Error α} (h : ∀ s, inv s → Gives (query s.table) P) :
    Keeps inv (ask query) P :=
  fun w hw => ⟨hw, h w.store hw⟩

theorem changeTable {change : Table → Except Error α × Table}
    (h : ∀ s, inv s → inv { s with table := (change s.table).2 } ∧ Gives (change s.table).1 P) :
    Keeps inv (changeTable change) P :=
  fun w hw => h w.store hw

theorem changeStore {change : Store → Except Error α × Store}
    (h : ∀ s, inv s → inv (change s).2 ∧ Gives (change s).1 P) :
    Keeps inv (changeStore change) P :=
  fun w hw => h w.store hw

theorem send (notifier : Notifier) (sent : List Notification) :
    Keeps inv (send notifier sent) fun _ => True :=
  fun _ hw => ⟨hw, .ok trivial⟩

end Keeps

end Run

namespace FactBase

open Storage

/-- An invariant of stores with clean facts that adding and removing keep. -/
structure IsKept (base : FactBase) (inv : Store → Prop) : Prop where
  /-- The facts are clean. -/
  clean : ∀ {s : Store}, inv s → IsClean s.table
  /-- Clean concepts may be added. -/
  add : ∀ {s : Store} {cs : List Concept}, inv s → (∀ c ∈ cs, c.Clean) →
    inv { s with table := (base.add cs s.table).2 }
  /-- Facts may be removed. -/
  remove : ∀ {s : Store}, inv s → ∀ cs, inv (base.remove cs s).2

/-- Facts stay clean. -/
theorem IsClean.isKept (base : FactBase) : IsKept base fun s => IsClean s.table where
  clean h := h
  add h clean := h.add clean
  remove {s} h cs := by
    rcases remove_spec base cs s with same | ⟨facts, left, loses, same⟩ <;> rw [same]
    · exact h
    · exact h.mono loses.old

namespace IsKept

variable {base : FactBase} {inv : Store → Prop} {notifier : Notifier} {active : List Trigger}
  {cs : List Concept} (h : IsKept base inv)

include h

theorem changeTable_add (clean : ∀ c ∈ cs, c.Clean) :
    Run.Keeps inv (Run.changeTable (base.add cs)) fun new => ∀ c ∈ new, c.Clean :=
  .changeTable fun s hs => ⟨h.add hs clean, clean_of_add clean s.table⟩

theorem changeStore_remove (cs : List Concept) :
    Run.Keeps inv (Run.changeStore (base.remove cs)) fun _ => True :=
  .changeStore fun _ hs => ⟨h.remove hs cs, fun _ _ => trivial⟩

/-- The start of a round keeps an invariant, and what it leaves to be done is of clean concepts. -/
theorem openRound (rules : ∀ trigger ∈ active, trigger.IsOf Concept.Clean)
    (clean : ∀ c ∈ cs, c.Clean) : Run.Keeps inv (base.openRound active cs)
      fun result => ∀ o, result = some o → o.IsClean := by
  rw [FactBase.openRound]
  cases clash? active (Separation.ofConcepts cs).triggers with
  | some trigger => exact .throw _
  | none =>
    have all : ∀ trigger ∈ active ++ (Separation.ofConcepts cs).triggers,
        trigger.IsOf Concept.Clean := by
      intro trigger ht
      rcases List.mem_append.mp ht with ht | ht
      · exact rules trigger ht
      · exact (Separation.areClean_triggers clean).arguments trigger ht
    refine .bind (h.changeTable_add fun c hc => clean c (List.mem_filter.mp hc).1)
      fun new cleanNew => ?_
    split
    · exact .pure (by simp)
    · have serves : ∀ s, inv s → Serves base s.table Concept.Clean Concept.Clean :=
        fun s hs => (h.clean hs).serves
      refine .bind (.ask fun s hs => (serves s hs).firings cleanNew all
        fun trigger ht => List.mem_append_right _ ht) fun fs bound =>
          .bind (.ask fun s hs => (serves s hs).changes fun f hf =>
            ⟨all f.trigger (bound f hf).1, (bound f hf).2⟩) fun changes cleanChanges => .pure ?_
      rintro _ ⟨rfl⟩
      exact ⟨all, fun c hc => clean c (List.mem_filter.mp hc).1, cleanChanges.1⟩

theorem retract (cs : List Concept) : Run.Keeps inv (base.retract cs) fun _ => True := by
  rw [FactBase.retract]
  split
  · exact .pure trivial
  · exact .bind (h.changeStore_remove cs) fun _ _ => .pure trivial

theorem closeRound {o : Opening} (clean : o.IsClean) :
    Run.Keeps inv (base.closeRound notifier o) fun _ => True := by
  rw [FactBase.closeRound]
  exact .bind (.send _ _) fun _ _ => .bind (h.retract _) fun _ _ =>
    .bind (h.changeTable_add clean.components) fun _ _ => .pure trivial

/-- Rounds keep an invariant, even if they fail. -/
theorem comesTo {w w' : SpaceState} {result : Except Error (List Round)}
    (run : ComesTo base notifier active cs w result w')
    (rules : ∀ trigger ∈ active, trigger.IsOf Concept.Clean) (clean : ∀ c ∈ cs, c.Clean)
    (hw : inv w.store) : inv w'.store := by
  -- A round gives clean concepts to the later ones, which leave the invariant to its end.
  induction run with
  | nil => exact hw
  | failed opened | last opened =>
    have kept := (h.openRound rules clean _ hw).1
    rwa [opened] at kept
  | @around _ _ _ _ _ _ _ o later _ opened _ concluded ih =>
    obtain ⟨kept, gives⟩ := h.openRound rules clean _ hw
    rw [opened] at kept gives
    have prepared : o.IsClean := gives _ rfl o rfl
    have conclude : Run.Keeps inv (base.concludeRound notifier o later) fun _ => True :=
      .bind (.ask (P := fun _ => True) fun _ _ _ _ => trivial) fun _ _ =>
        .bind (h.closeRound prepared) fun _ _ => .pure trivial
    have kept := (conclude _ (ih prepared.active prepared.additions kept)).1
    rwa [concluded] at kept

theorem addRounds (rules : ∀ trigger ∈ active, trigger.IsOf Concept.Clean)
    (clean : ∀ c ∈ cs, c.Clean) :
    Run.Keeps inv (base.addRounds notifier active cs) fun _ => True := by
  intro w hw
  refine ⟨?_, fun _ _ => trivial⟩
  rcases comesTo_or_endless base notifier active cs w with ⟨result, w', e, run⟩ | endless
  · rw [e]
    exact h.comesTo run rules clean hw
  · rw [endless]
    exact hw

theorem addAll (clean : ∀ c ∈ cs, c.Clean) :
    Run.Keeps inv (base.addAll notifier cs) fun _ => True := by
  rw [FactBase.addAll]
  split
  · exact .pure trivial
  · exact .bind (.ask fun s hs => (h.clean hs).clean_of_triggers) fun active rules =>
      h.addRounds rules clean

end IsKept

end FactBase

end ConceptSpace
