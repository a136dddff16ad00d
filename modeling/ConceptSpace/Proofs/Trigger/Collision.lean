import ConceptSpace.Proofs.Trigger.Attempts
import ConceptSpace.Proofs.Trigger.Failures

/-!
# Additions that end with a collision of names

A round whose concepts define a trigger under the name of an active one ends the whole addition. The
first round finds such a trigger before it has changed anything. In a later round the trigger comes
of what triggers add, and then the facts of the rounds before are stored already: they stay, while
nothing is removed, sent or attached (`onlyAdded_of_duplicateTrigger`).
-/

namespace ConceptSpace

namespace Run

variable {α β : Type} {w w' : SpaceState}

/-- A run that changes nothing, whether it succeeds or not. -/
def Reads (x : Run α) : Prop :=
  ∀ w, (x w).2 = w

theorem Reads.bind {x : Run α} {f : α → Run β} (hx : Reads x) (hf : ∀ a, Reads (f a)) :
    Reads (x >>= f) := by
  intro w
  have first := hx w
  rw [bind_apply]
  rcases step : x w with ⟨e | a, v⟩ <;> rw [step] at first <;> obtain rfl : v = w := first
  · rfl
  · exact hf a v

/-- What follows without a change leaves the state of the first step. -/
theorem snd_bind_of_reads {f : α → Run β} (hf : ∀ a, Reads (f a)) (x : Run α) (w : SpaceState) :
    ((x >>= f) w).2 = (x w).2 := by
  rw [bind_apply]
  rcases x w with ⟨e | a, v⟩
  · rfl
  · exact hf a v

end Run

namespace FactBase

open Storage

/-! ## What adding leaves behind -/

/-- What an addition that ends with a collision may have done: it has stored facts. -/
structure OnlyAdded (w w' : SpaceState) : Prop where
  /-- Nothing was sent. -/
  journal : w'.journal = w.journal
  /-- The store is of the same kind. -/
  backend : w'.store.backend = w.store.backend
  /-- No text was attached or dropped. -/
  texts : w'.store.texts = w.store.texts
  /-- Nothing was removed. -/
  keeps : KeepsKeys w.store.table w'.store.table
  /-- Where something has changed, there is a new fact. -/
  changed : w' = w ∨
    ∃ c, contains w'.store.table c = true ∧ contains w.store.table c = false

namespace OnlyAdded

variable {v w w' : SpaceState}

theorem refl (w : SpaceState) : OnlyAdded w w :=
  ⟨rfl, rfl, rfl, fun _ h => h, .inl rfl⟩

theorem trans (h : OnlyAdded v w) (h' : OnlyAdded w w') : OnlyAdded v w' where
  journal := h'.journal.trans h.journal
  backend := h'.backend.trans h.backend
  texts := h'.texts.trans h.texts
  keeps key hk := h'.keeps key (h.keeps key hk)
  changed := by
    obtain rfl | ⟨c, stored, fresh⟩ := h.changed
    · exact h'.changed
    · exact .inr ⟨c, h'.keeps _ stored, fresh⟩

theorem eq_iff (h : OnlyAdded w w') :
    w' = w ↔ ∀ c, contains w'.store.table c = true → contains w.store.table c = true := by
  constructor
  · rintro rfl c hc
    exact hc
  · intro old
    refine h.changed.resolve_right ?_
    rintro ⟨c, stored, fresh⟩
    simp [old c stored] at fresh

theorem of_add (base : FactBase) (cs : List Concept) (w : SpaceState) :
    OnlyAdded w (Run.changeTable (base.add cs) w).2 := by
  obtain ⟨keeps, changed⟩ := add_spec base cs w.store.table
  refine ⟨rfl, rfl, rfl, keeps, changed.imp_left fun same => ?_⟩
  have eta : (Run.changeTable (base.add cs) w).2 =
      { w with store := { w.store with table := (base.add cs w.store.table).2 } } := rfl
  rw [eta, same]

end OnlyAdded

/-! ## Rounds -/

section Rounds

variable {base : FactBase} {notifier : Notifier} {active : List Trigger} {cs : List Concept}
  {w w' : SpaceState}

/-- A round that defines a trigger under a name that is taken ends before it has done anything. -/
theorem openRound_of_clash {trigger : Trigger}
    (clash : clash? active (Separation.ofConcepts cs).triggers = some trigger) :
    base.openRound active cs w = (.error (.duplicateTrigger trigger.name.key), w) := by
  rw [openRound]
  simp only [clash]
  rfl

/-- The start of a round does nothing but store facts. -/
theorem onlyAdded_openRound (base : FactBase) (active : List Trigger) (cs : List Concept)
    (w : SpaceState) : OnlyAdded w (base.openRound active cs w).2 := by
  cases clash : clash? active (Separation.ofConcepts cs).triggers with
  | some trigger =>
    rw [openRound_of_clash clash]
    exact .refl w
  | none =>
    rw [openRound]
    simp only [clash]
    -- Behind the facts, the start of a round only asks the table.
    rw [Run.snd_bind_of_reads]
    · exact .of_add base (Separation.ofConcepts cs).facts w
    · intro facts
      split
      · exact fun _ => rfl
      · exact Run.Reads.bind (fun _ => rfl) fun firings =>
          Run.Reads.bind (fun _ => rfl) fun changes _ => rfl

/-- Rounds that come to a collision have done nothing but store facts. -/
theorem ComesTo.onlyAdded {result : Except Error (List Round)}
    (h : ComesTo base notifier active cs w result w') {name : String}
    (collided : result = .error (.duplicateTrigger name)) : OnlyAdded w w' := by
  induction h with
  | nil | last => cases collided
  | @failed active c cs w _ _ opened =>
    have added := onlyAdded_openRound base active (c :: cs) w
    rwa [opened] at added
  | @around active c cs w _ _ _ _ _ _ opened _ concluded ih =>
    have added := onlyAdded_openRound base active (c :: cs) w
    rw [opened] at added
    -- The end of a round cannot collide, so that a later round has.
    rw [collided] at concluded
    obtain ⟨later, rfl⟩ | closed := error_of_concludeRound concluded
    · exact added.trans (ih later)
    · exact (error_of_closeRound closed).elim

/-- An addition that itself defines a trigger under a name that is taken changes nothing. -/
theorem addRounds_of_clash {trigger : Trigger}
    (clash : clash? active (Separation.ofConcepts cs).triggers = some trigger) :
    base.addRounds notifier active cs w = (.error (.duplicateTrigger trigger.name.key), w) := by
  cases cs with
  | nil => simp [Separation.ofConcepts, Trigger.ofComponents, clash?] at clash
  | cons c cs => exact (ComesTo.failed (openRound_of_clash clash)).addRounds_eq

end Rounds

/-! ## Main statement -/

/-- An addition that ends with a collision of names has stored facts at most, and it has changed
nothing just if no fact is new. If the concepts themselves define a trigger under the name of an
active one, it has changed nothing. -/
theorem onlyAdded_of_duplicateTrigger {base : FactBase} {notifier : Notifier}
    {given : Option (List Trigger)} {cs : List Concept} {w w' : SpaceState} {name : String}
    (h : base.addUnder notifier given cs w = (.error (.duplicateTrigger name), w')) :
    OnlyAdded w w' ∧
      (w' = w ↔ ∀ c, contains w'.store.table c = true → contains w.store.table c = true) ∧
      ∀ active trigger, base.activeTriggers w.store.table given = .ok active →
        clash? active (Separation.ofConcepts cs).triggers = some trigger →
          trigger.name.key = name ∧ w' = w := by
  obtain empty | ⟨e, failed, same⟩ | ⟨active, loaded, same⟩ :=
    addUnder_cases base notifier given cs w
  · cases (Prod.mk.inj (empty.symm.trans h)).1
  · obtain ⟨-, rfl⟩ := Prod.mk.inj (same.symm.trans h)
    exact ⟨.refl w, by simp, fun active _ found => absurd (failed.symm.trans found) nofun⟩
  · have ran := same.symm.trans h
    have added : OnlyAdded w w' := (comesTo_of_addRounds ran nofun).onlyAdded rfl
    refine ⟨added, added.eq_iff, fun active' trigger found clash => ?_⟩
    obtain rfl : active = active' := Except.ok.inj (loaded.symm.trans found)
    obtain ⟨same, rfl⟩ := Prod.mk.inj ((addRounds_of_clash clash).symm.trans ran)
    exact ⟨Error.duplicateTrigger.inj (Except.error.inj same), rfl⟩

/-- A trigger that reacts to `A` facts by adding one more part of its own definition. -/
private def selfNaming : Trigger where
  name := .atom "t"
  conditions := [.compound [.atom "$x", .atom "A"]]
  additions := [.compound [.atom "t", .compound [.atom "@adds", .atom "z"]]]

private def kindFact : Concept :=
  .compound [.atom "k", .atom "A"]

private def emptySpace : SpaceState :=
  ⟨Store.create .memory, []⟩

/-- The addition of the fact under the trigger, in an empty space. -/
private def selfNamingRun : Except Error (List Round) × SpaceState :=
  addUnder ⟨"home", 9⟩ .accepting (some [selfNaming]) [kindFact] emptySpace

/-- Whether a run has ended with a collision at the name of the trigger, after the fact was
stored. -/
private def collides : Except Error (List Round) × SpaceState → Bool
  | (.error (.duplicateTrigger name), w) => name == "t" && contains w.store.table kindFact
  | _ => false

/-- The run ends with a collision when the fact is stored. -/
theorem exists_selfNamingRun_eq : ∃ w, selfNamingRun = (.error (.duplicateTrigger "t"), w) ∧
    contains w.store.table kindFact = true := by
  have run : collides (attempt ⟨"home", 9⟩ .accepting 2 [selfNaming] [kindFact] emptySpace) =
      true := by decide +kernel
  unfold collides at run
  split at run
  case h_2 => cases run
  case h_1 name w ended =>
    obtain ⟨same, stored⟩ := Bool.and_eq_true _ _ ▸ run
    obtain rfl : name = "t" := beq_iff_eq.mp same
    exact ⟨w, addRounds_of_attempt ended nofun, stored⟩

theorem selfNamingRun_onlyAdded : ∃ w, selfNamingRun = (.error (.duplicateTrigger "t"), w) ∧
    OnlyAdded emptySpace w := by
  obtain ⟨w, ended, -⟩ := exists_selfNamingRun_eq
  exact ⟨w, ended, (onlyAdded_of_duplicateTrigger ended).1⟩

/-- After a collision in a later round, the store is not what it was. -/
theorem selfNamingRun_changes_store : ∃ w, selfNamingRun = (.error (.duplicateTrigger "t"), w) ∧
    w.store.table ≠ emptySpace.store.table := by
  obtain ⟨w, ended, stored⟩ := exists_selfNamingRun_eq
  refine ⟨w, ended, fun unchanged => ?_⟩
  have absent : contains emptySpace.store.table kindFact = false := by decide
  rw [unchanged, absent] at stored
  exact Bool.false_ne_true stored

end FactBase

end ConceptSpace
