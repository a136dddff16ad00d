import ConceptSpace.Proofs.Trigger.Keeping

/-!
# How rounds fail

A query that ends fails by a fault of what is read, if it fails (`isRead_of_search`), and so do
additions and removals of facts. The start of a round may fail besides because a query goes on for
ever or because the name of a new trigger is taken (`error_of_openRound`); its end asks no queries
(`error_of_closeRound`). So the outcomes that stand for queries and rounds which never end are the
outcomes of just these (`search_eq_none_iff`, `rounds_eq_none_iff`).

Queries of clean rules over clean facts end. So the rounds with such facts, triggers and concepts
come to no query that goes on for ever (`ComesTo.ne_endlessQuery`).
-/

namespace ConceptSpace

open Sequence (Fails)

namespace Search

variable {α β : Type} {P : Error → Prop}

/-- A search whose faults, if it ends with one, have a property. -/
def FailsBy (y : Search α) (P : Error → Prop) : Prop :=
  ∀ r, (y : Option (Except Error α)) = some r → Fails r P

namespace FailsBy

theorem lift {x : Except Error α} (h : Fails x P) : FailsBy (liftM x) P :=
  fun _ e => Option.some.inj e ▸ h

theorem bind {y : Search α} {g : α → Search β} (h : FailsBy y P) (next : ∀ a, FailsBy (g a) P) :
    FailsBy (y >>= g) P := by
  intro r ran
  obtain ⟨first, run, rest⟩ := Option.bind_eq_some_iff.mp ran
  cases first with
  | error e =>
    obtain rfl := Option.some.inj rest
    exact .error (h _ run e rfl)
  | ok a => exact next a r rest

theorem mapM {g : α → Search β} (h : ∀ a, FailsBy (g a) P) (l : List α) :
    FailsBy (l.mapM g) P := by
  induction l with
  | nil => exact .lift (.ok [])
  | cons a l ih =>
    rw [List.mapM_cons]
    exact (h a).bind fun b => ih.bind fun bs => .lift (.ok (b :: bs))

end FailsBy

end Search

/-- Whether a fault is one of those that asking or changing a table can end with. -/
def Error.IsOfTable : Error → Prop
  | .source _ => True
  | .storage _ => True
  | .endlessQuery => True
  | _ => False

theorem Error.IsRead.isOfTable {e : Error} (h : e.IsRead) : e.IsOfTable := by
  cases e <;> trivial

namespace FactBase

open Storage

variable {base : FactBase} {t : Table}

/-! ## Queries -/

/-- A query that ends fails by a fault of what is read, if it fails. -/
theorem isRead_of_search {partials : Bool} {rules : List Concept}
    {r : Except Error (List Bindings)} (ended : base.search t partials rules = some r) :
    Fails r Error.IsRead := by
  refine search.partial_correctness base t partials (fun _ r => Fails r Error.IsRead)
    (fun answer ih rules r reached => ?_) rules r ended
  revert r
  change Search.FailsBy _ _
  rw [List.partition_eq_filter_filter]
  simp only
  split
  · exact .lift (.ok [])
  refine .bind (.lift (fails_pivot t _)) fun chosen => ?_
  rcases chosen with _ | ⟨mask, rule, rest⟩
  · exact .lift (.ok [∅])
  simp only
  cases rule.match? mask with
  | none => exact .lift (.ok [])
  | some places =>
    refine .bind (.lift (fails_maskEntries t mask)) fun entries =>
      .bind (.mapM (fun values => ?_) entries) fun answers => .lift (.ok _)
    cases bindEntry places values with
    | none => exact .lift (.ok [])
    | some candidate =>
      simp only
      split
      · exact .lift (.ok [])
      split
      · exact .lift (.ok [_])
      exact .bind (.lift (.liftSource _)) fun remaining =>
        .bind (ih remaining) fun completions => .lift (.ok _)

theorem fails_answers (base : FactBase) (t : Table) (partials : Bool) (rules : List Concept) :
    Fails (base.answers t rules partials) Error.IsOfTable := by
  rw [answers]
  cases ended : base.search t partials rules with
  | none => exact .error trivial
  | some r => exact (isRead_of_search ended).mono fun _ => Error.IsRead.isOfTable

/-- The outcome of queries that never end is that of no other query. -/
theorem search_eq_none_iff {partials : Bool} {rules : List Concept} :
    base.search t partials rules = none ↔
      base.answers t rules partials = .error .endlessQuery := by
  rw [answers]
  cases ended : base.search t partials rules with
  | none => exact ⟨fun _ => rfl, fun _ => rfl⟩
  | some r =>
    refine ⟨fun none => (Option.some_ne_none r none).elim, fun same => ?_⟩
    exact (isRead_of_search ended .endlessQuery same).elim

/-! ## Firings -/

section Firings

variable {rule kind : Concept → Prop} {P : Error → Prop} {fact : Concept} {trigger : Trigger}
  {active newTriggers : List Trigger} (h : Serves base t rule kind)
  (read : ∀ e : Error, e.IsRead → P e)
  (asked : ∀ rules, (∀ r ∈ rules, rule r) → Fails (base.answers t rules) P)

include h read asked

theorem fails_firingsWith (hf : kind fact) (rules : trigger.IsOf rule) :
    Fails (base.firingsWith t fact trigger) P := by
  refine .bind (.mapM fun pick picked => ?_) fun _ _ => .ok _
  have conditions : ∀ r ∈ pick.1 :: pick.2, rule r := fun r hr =>
    rules .condition r ((Matcher.perm_of_mem_picks picked).mem_iff.mpr hr)
  simp only
  split
  · exact .ok _
  case h_2 found matched =>
    rw [completions]
    split
    · exact .ok _
    · refine .bind (.mono (.liftSource _) read) fun instances e => .bind (asked _ ?_) fun _ _ => .ok _
      exact (h.instances (h.fits (conditions pick.1 (by simp)) hf matched)
        fun r hr => conditions r (by simp [hr])).liftSource instances e

/-- The search for the firings of a round fails as its queries do, or by a fault of what is read. -/
theorem fails_firings {new : List Concept} (hn : ∀ c ∈ new, kind c)
    (rules : ∀ trigger ∈ active, trigger.IsOf rule)
    (among : ∀ trigger ∈ newTriggers, trigger ∈ active) :
    Fails (base.firings t active new newTriggers) P := by
  refine .bind (.mapM fun fact hf => ?_) fun _ _ => .bind (.mapM fun trigger ht => ?_)
    fun _ _ => .ok _
  · rw [firingsOfFact]
    split
    · exact .ok _
    · exact .bind (.mapM fun trigger ht => fails_firingsWith h read asked (hn fact hf)
        (rules trigger ht)) fun _ _ => .ok _
  · rw [firingsOfTrigger]
    split
    · exact .ok _
    · exact .bind (asked _ (rules trigger (among trigger ht) .condition)) fun _ _ => .ok _

end Firings

theorem fails_changes (firings : List Firing) : Fails (Changes.ofFirings firings) Error.IsRead :=
  .bind (.mapM fun _ _ => .bind (.liftSource _) fun _ _ => .bind (.liftSource _) fun _ _ =>
    .bind (.liftSource _) fun _ _ => .ok _) fun _ _ => .ok _

/-! ## Adding and removing -/

theorem fails_add (base : FactBase) (cs : List Concept) (t : Table) :
    Fails (base.add cs t).1 Error.IsRead := by
  unfold add
  simp only
  split
  · exact .ok _
  · split
    · exact .error trivial
    · exact .ok _

theorem fails_upward (t pending : Table) (stack : List Concept) :
    Fails (upward t pending stack) Error.IsRead := by
  have around : ∀ c, Fails (contexts t c) Error.IsRead := fun c => by
    refine .bind (.mapM fun key _ => ?_) fun _ _ => .ok _
    exact .bind (.liftStorage _) fun _ _ => .liftSource _
  fun_induction upward t pending stack with
  | case1 => exact .ok []
  | case2 pending stack c rest first ih =>
    exact .bind (around c) fun found _ => .bind (ih found) fun more _ => .ok (c :: more)

theorem fails_remove (base : FactBase) (cs : List Concept) (s : Store) :
    Fails (base.remove cs s).1 Error.IsRead := by
  have found := fails_upward s.table s.table (Concept.distinct cs)
  unfold remove doomed
  split
  case h_1 fault failed => exact .error (found fault failed)
  case h_2 =>
    split
    · exact .error trivial
    · exact .ok _

/-! ## Rounds -/

section Rounds

variable {notifier : Notifier} {active : List Trigger} {cs : List Concept} {w w' : SpaceState}
  {e : Error}

/-- The start of a round fails as its search for firings does, by a fault of what is read, or
because a name is taken. -/
theorem error_of_openRound_of_fails {P : Error → Prop} (read : ∀ e : Error, e.IsRead → P e)
    (asked : ∀ new v,
      Run.changeTable (base.add (Separation.ofConcepts cs).facts) w = (.ok new, v) →
        Fails (base.firings v.store.table (active ++ (Separation.ofConcepts cs).triggers) new
          (Separation.ofConcepts cs).triggers) P)
    (h : base.openRound active cs w = (.error e, w')) :
    P e ∨ ∃ name, e = .duplicateTrigger name := by
  rw [openRound] at h
  cases clash : clash? active (Separation.ofConcepts cs).triggers with
  | some trigger =>
    simp only [clash] at h
    exact .inr ⟨trigger.name.key, (Except.error.inj (Prod.mk.inj h).1).symm⟩
  | none =>
    simp only [clash] at h
    refine .inl ?_
    obtain stored | ⟨facts, v, added, h⟩ := Run.error_of_bind h
    · exact read e (fails_add base _ _ e (Prod.mk.inj stored).1)
    split at h
    · exact (Run.pure_ne_error h).elim
    obtain searched | ⟨firings, v', -, h⟩ := Run.error_of_bind h
    · exact asked facts v added e (Run.eq_of_ask searched).1
    obtain weighed | ⟨changes, v'', -, h⟩ := Run.error_of_bind h
    · exact read e (fails_changes firings e (Run.eq_of_ask weighed).1)
    · exact (Run.pure_ne_error h).elim

/-- The start of a round fails by a fault of the table, or because a name is taken. -/
theorem error_of_openRound (h : base.openRound active cs w = (.error e, w')) :
    e.IsOfTable ∨ ∃ name, e = .duplicateTrigger name := by
  refine error_of_openRound_of_fails (fun _ => Error.IsRead.isOfTable) (fun new v _ => ?_) h
  exact fails_firings (.trivial base v.store.table) (fun _ => Error.IsRead.isOfTable)
    (fun rules _ => fails_answers base v.store.table false rules) (fun _ _ => trivial)
    (fun _ _ _ _ _ => trivial) fun _ ht => List.mem_append_right _ ht

/-- Over clean facts, the start of a round with clean triggers and concepts fails by a fault of what
is read, or because a name is taken. -/
theorem IsClean.error_of_openRound (clean : IsClean w.store.table)
    (rules : ∀ trigger ∈ active, trigger.IsOf Concept.Clean) (given : ∀ c ∈ cs, c.Clean)
    (h : base.openRound active cs w = (.error e, w')) :
    e.IsRead ∨ ∃ name, e = .duplicateTrigger name := by
  refine error_of_openRound_of_fails (fun _ => id) (fun new v added => ?_) h
  have facts : ∀ c ∈ (Separation.ofConcepts cs).facts, c.Clean := fun c hc =>
    given c (List.mem_filter.mp hc).1
  have triggers := (Separation.areClean_triggers given).arguments
  obtain ⟨stored, isNew⟩ := (IsClean.isKept base).changeTable_add facts w clean
  rw [added] at stored isNew
  refine fails_firings stored.serves (fun _ => id)
    (fun _ rules => stored.isRead_of_answers rules) (isNew new rfl)
    (fun trigger ht => ?_) fun _ ht => List.mem_append_right _ ht
  rcases List.mem_append.mp ht with ht | ht
  · exact rules trigger ht
  · exact triggers trigger ht

/-- The end of a round fails by a fault of what is read. -/
theorem error_of_closeRound {o : Opening} (h : base.closeRound notifier o w = (.error e, w')) :
    e.IsRead := by
  rw [closeRound] at h
  obtain sent | ⟨_, v, -, h⟩ := Run.error_of_bind h
  · cases (Prod.mk.inj sent).1
  obtain retracted | ⟨_, v', -, h⟩ := Run.error_of_bind h
  · rw [retract] at retracted
    split at retracted
    · exact (Run.pure_ne_error retracted).elim
    · obtain removed | ⟨_, _, -, counted⟩ := Run.error_of_bind retracted
      · exact fails_remove base _ _ e (Prod.mk.inj removed).1
      · exact (Run.pure_ne_error counted).elim
  obtain stored | ⟨_, _, -, h⟩ := Run.error_of_bind h
  · exact fails_add base _ _ e (Prod.mk.inj stored).1
  · exact (Run.pure_ne_error h).elim

/-- Rounds that come to an outcome have ended. -/
theorem ComesTo.ne_endlessRounds {result : Except Error (List Round)}
    (h : ComesTo base notifier active cs w result w') : result ≠ .error .endlessRounds := by
  intro same
  induction h with
  | nil | last => cases same
  | failed opened =>
    obtain rfl := Except.error.inj same
    obtain ofTable | ⟨name, ⟨⟩⟩ := error_of_openRound opened
    exact ofTable
  | around _ _ concluded ih =>
    subst same
    obtain ⟨rfl, -⟩ | closed := error_of_concludeRound concluded
    · exact ih rfl
    · exact error_of_closeRound closed

/-- The outcome of rounds that never end is that of no other rounds. -/
theorem rounds_eq_none_iff : base.rounds notifier active cs w = none ↔
    (base.addRounds notifier active cs w).1 = .error .endlessRounds := by
  rw [addRounds]
  cases ended : base.rounds notifier active cs w with
  | none => exact ⟨fun _ => rfl, fun _ => rfl⟩
  | some r =>
    have run := rounds_eq_some_iff.mp (ended : _ = some (r.1, r.2))
    exact ⟨fun none => (Option.some_ne_none r none).elim, fun same => (run.ne_endlessRounds same).elim⟩

/-- Over clean facts, rounds with clean triggers and concepts come to no query that never ends. -/
theorem ComesTo.ne_endlessQuery {result : Except Error (List Round)}
    (h : ComesTo base notifier active cs w result w') (clean : IsClean w.store.table)
    (rules : ∀ trigger ∈ active, trigger.IsOf Concept.Clean) (given : ∀ c ∈ cs, c.Clean) :
    result ≠ .error .endlessQuery := by
  intro same
  induction h with
  | nil | last => cases same
  | failed opened =>
    obtain rfl := Except.error.inj same
    obtain read | ⟨name, ⟨⟩⟩ := clean.error_of_openRound rules given opened
    exact read
  | around opened _ concluded ih =>
    subst same
    obtain ⟨rfl, -⟩ | closed := error_of_concludeRound concluded
    · obtain ⟨kept, gives⟩ := (IsClean.isKept base).openRound rules given _ clean
      rw [opened] at kept gives
      have prepared := gives _ rfl _ rfl
      exact ih kept prepared.active prepared.additions rfl
    · exact error_of_closeRound closed

end Rounds

end FactBase

end ConceptSpace
