import ConceptSpace.Proofs.Facts.CleanTables
import ConceptSpace.Proofs.Trigger.Stored
import ConceptSpace.Trigger.Round

/-!
# What firings bind

The firings of a round are found by asking for the conditions of triggers. If answers bind facts of
a kind, and rules with such facts put in are rules again, then firings bind such facts
(`Serves.firings`), and what they add and remove are rules (`Serves.changes`). In a table of clean
facts this holds of clean concepts (`IsClean.serves`), and so its triggers are of clean concepts
(`IsClean.clean_of_triggers`).
-/

namespace ConceptSpace

open Sequence (Gives)

/-- The arguments of a trigger are of a kind. -/
def Trigger.IsOf (kind : Concept → Prop) (trigger : Trigger) : Prop :=
  ∀ role, ∀ a ∈ trigger.arguments role, kind a

/-- What the start of a round leaves to be done is of clean concepts. -/
structure Opening.IsClean (o : Opening) : Prop where
  /-- The active triggers are of clean concepts. -/
  active : ∀ trigger ∈ o.active, trigger.IsOf Concept.Clean
  /-- The components are clean. -/
  components : ∀ c ∈ o.components, c.Clean
  /-- What is still to be added is clean. -/
  additions : ∀ c ∈ o.changes.additions, c.Clean

namespace FactBase

open Storage

/-- A table whose facts are of a kind, as far as rules of a kind ask for them. -/
structure Serves (base : FactBase) (t : Table) (rule kind : Concept → Prop) : Prop where
  /-- Rules with facts put in are rules. -/
  instances : ∀ {b : Bindings} {rules : List Concept}, b.AllValues kind → (∀ r ∈ rules, rule r) →
    Gives (Source.substitute b.values rules) fun found => ∀ d ∈ found, rule d
  /-- The answers to rules bind facts. -/
  answers : ∀ {rules : List Concept}, (∀ r ∈ rules, rule r) →
    Gives (base.answers t rules) fun found => ∀ b ∈ found, b.AllValues kind
  /-- A rule that fits a fact binds facts. -/
  fits : ∀ {r c : Concept} {b : Bindings}, rule r → kind c → c.match? r = some b →
    b.AllValues kind

namespace Serves

/-- Every table serves, if nothing is said of rules and facts. -/
protected theorem trivial (base : FactBase) (t : Table) :
    Serves base t (fun _ => True) (fun _ => True) where
  instances _ _ _ _ _ _ := True.intro
  answers _ _ _ _ _ _ _ _ := True.intro
  fits _ _ _ _ _ _ := True.intro

variable {base : FactBase} {t : Table} {rule kind : Concept → Prop} {fact : Concept}
  {trigger : Trigger} {active : List Trigger} (h : Serves base t rule kind)

include h

theorem completions {found : Bindings} {remaining : List Concept} (stored : found.AllValues kind)
    (rules : ∀ r ∈ remaining, rule r) :
    Gives (base.completions t found remaining) fun bs => ∀ b ∈ bs, b.AllValues kind := by
  rw [FactBase.completions]
  split
  · exact .ok (by simpa using stored)
  · refine .bind (.liftSource (h.instances stored rules)) fun instances isRule =>
      .bind (h.answers isRule) fun answers storedExtra => .ok fun b hb => ?_
    obtain ⟨extra, he, merged⟩ := List.mem_filterMap.mp hb
    exact stored.merge? (storedExtra extra he) merged

/-- The firings of a trigger that are found for a fact bind facts. -/
theorem firingsWith (hf : kind fact) (rules : trigger.IsOf rule) :
    Gives (base.firingsWith t fact trigger) fun fs =>
      ∀ f ∈ fs, f.trigger = trigger ∧ f.bindings.AllValues kind := by
  rw [FactBase.firingsWith]
  refine .bind (P := fun lists => ∀ bs ∈ lists, ∀ b ∈ bs, b.AllValues kind)
    (.mapM fun pick picked => ?_) fun lists stored => .ok fun f hm => ?_
  · have conditions : ∀ r ∈ pick.1 :: pick.2, rule r := fun r hr =>
      rules .condition r ((Matcher.perm_of_mem_picks picked).mem_iff.mpr hr)
    simp only
    split
    · exact .ok (by simp)
    case h_2 cand matched =>
      exact h.completions (h.fits (conditions pick.1 (by simp)) hf matched)
        fun r hr => conditions r (by simp [hr])
  · obtain ⟨b, hb, rfl⟩ := List.mem_map.mp hm
    obtain ⟨bs, hl, hb⟩ := List.mem_flatten.mp (List.mem_filter.mp hb).1
    exact ⟨rfl, stored bs hl b hb⟩

theorem firingsOfFact (hf : kind fact) (rules : ∀ trigger ∈ active, trigger.IsOf rule) :
    Gives (base.firingsOfFact t active fact) fun fs =>
      ∀ f ∈ fs, f.trigger ∈ active ∧ f.bindings.AllValues kind := by
  rw [FactBase.firingsOfFact]
  split
  · exact .ok (by simp)
  · refine .bind (P := fun lists => ∀ fs ∈ lists, ∀ f ∈ fs, f.trigger ∈ active ∧
      f.bindings.AllValues kind) (.mapM fun trigger ht => ?_) fun lists stored => .ok fun f hm => ?_
    · refine (h.firingsWith hf (rules trigger ht)).mono fun fs stored f hm => ?_
      exact ⟨(stored f hm).1 ▸ ht, (stored f hm).2⟩
    · obtain ⟨fs, hl, hm⟩ := List.mem_flatten.mp hm
      exact stored fs hl f hm

theorem firingsOfTrigger (rules : trigger.IsOf rule) :
    Gives (base.firingsOfTrigger t trigger) fun fs =>
      ∀ f ∈ fs, f.trigger = trigger ∧ f.bindings.AllValues kind := by
  rw [FactBase.firingsOfTrigger]
  split
  · exact .ok (by simp)
  · refine .bind (h.answers (rules .condition)) fun found stored => .ok fun f hm => ?_
    obtain ⟨b, hb, rfl⟩ := List.mem_map.mp hm
    exact ⟨rfl, stored b (List.mem_filter.mp hb).1⟩

/-- The firings of a round bind facts. -/
theorem firings {new : List Concept} {newTriggers : List Trigger} (hn : ∀ c ∈ new, kind c)
    (rules : ∀ trigger ∈ active, trigger.IsOf rule)
    (among : ∀ trigger ∈ newTriggers, trigger ∈ active) :
    Gives (base.firings t active new newTriggers) fun fs =>
      ∀ f ∈ fs, f.trigger ∈ active ∧ f.bindings.AllValues kind := by
  have ofTrigger : ∀ trigger ∈ newTriggers, Gives (base.firingsOfTrigger t trigger) fun fs =>
      ∀ f ∈ fs, f.trigger ∈ active ∧ f.bindings.AllValues kind := fun trigger ht =>
    (h.firingsOfTrigger (rules trigger (among trigger ht))).mono fun fs stored f hm =>
      ⟨(stored f hm).1 ▸ among trigger ht, (stored f hm).2⟩
  rw [FactBase.firings]
  refine .bind (.mapM fun c hc => h.firingsOfFact (hn c hc) rules) fun ofFacts storedFacts =>
    .bind (.mapM ofTrigger) fun ofTriggers storedTriggers => .ok fun f hm => ?_
  rcases List.mem_append.mp ((Sequence.distinctBy_sublist _ _).subset hm) with hm | hm
  · obtain ⟨fs, hl, hm⟩ := List.mem_flatten.mp hm
    exact storedFacts fs hl f hm
  · obtain ⟨fs, hl, hm⟩ := List.mem_flatten.mp hm
    exact storedTriggers fs hl f hm

/-- What firings add and remove are rules. -/
theorem changes {fs : List Firing}
    (bound : ∀ f ∈ fs, f.trigger.IsOf rule ∧ f.bindings.AllValues kind) :
    Gives (Changes.ofFirings fs) fun changes =>
      (∀ c ∈ changes.additions, rule c) ∧ ∀ c ∈ changes.removals, rule c := by
  rw [Changes.ofFirings]
  refine .bind (P := fun parts => ∀ changes ∈ parts,
    (∀ c ∈ changes.additions, rule c) ∧ ∀ c ∈ changes.removals, rule c)
    (.mapM fun f hf => ?_) fun parts isRule => .ok ⟨fun c hc => ?_, fun c hc => ?_⟩
  · obtain ⟨templates, values⟩ := bound f hf
    refine .bind (.liftSource (h.instances values (templates .addition))) fun additions added =>
      .bind (.liftSource (h.instances values (templates .removal))) fun removals removed =>
        .bind (P := fun _ => True) (fun _ _ => trivial) fun _ _ => .ok ⟨added, removed⟩
  · obtain ⟨changes, hm, hc⟩ := List.mem_flatMap.mp ((Concept.distinct_sublist _).subset hc)
    exact (isRule changes hm).1 c hc
  · obtain ⟨changes, hm, hc⟩ := List.mem_flatMap.mp ((Concept.distinct_sublist _).subset hc)
    exact (isRule changes hm).2 c hc

end Serves

/-! ## Clean facts -/

namespace IsClean

variable {base : FactBase} {t : Table} (h : IsClean t)

include h

theorem serves : Serves base t Concept.Clean Concept.Clean where
  instances values clean :=
    fun _ => Source.clean_of_substitute clean fun _ _ hm => values (Bindings.mem_values_iff.mp hm)
  answers := h.clean_of_answers
  fits hr hc matched := (hr.fits_of_match? hc matched).clean

/-- The stored triggers are of clean concepts. -/
theorem clean_of_triggers :
    Gives (base.triggers t) fun ts => ∀ trigger ∈ ts, trigger.IsOf Concept.Clean := by
  rw [FactBase.triggers]
  refine .bind (P := fun lists => ∀ ds ∈ lists, ∀ d ∈ ds, d.IsClean) (.mapM fun role _ => ?_)
    fun lists clean => .ok fun trigger ht => ?_
  · refine .bind (h.clean_of_answers (by simpa using clean_componentRule role))
      fun answers clean => .ok fun d hd => ?_
    obtain ⟨b, hb, stated⟩ := List.mem_filterMap.mp hd
    obtain ⟨-, name, argument⟩ := componentOf?_eq_some_iff.mp stated
    exact ⟨clean b hb name, clean b hb argument⟩
  · refine (Trigger.areClean_ofComponents fun d hd => ?_).arguments trigger ht
    obtain ⟨ds, hl, hd⟩ := List.mem_flatten.mp hd
    exact clean ds hl d hd

end IsClean

end FactBase

end ConceptSpace
