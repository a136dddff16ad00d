import ConceptSpace.Proofs.Trigger.Collision
import ConceptSpace.Proofs.Trigger.Rounds

/-!
# Notifiers decide nothing

An addition sends the notifications of a round when the later rounds are over, and what follows does
not ask what became of them. So the result and the store are the same whatever the notifier decides
and whatever was sent before, and an addition that succeeds has sent the notifications of all its
rounds, each once, those of the last round first (`announces_addUnder`).
-/

namespace ConceptSpace

/-! ## Runs that do not look at the journal -/

namespace Run

variable {α β : Type}

/-- From the same store, both runs come to the same result and the same store, whatever was sent
before. -/
def Agree (x y : Run α) : Prop :=
  ∀ store journal journal', (x ⟨store, journal⟩).1 = (y ⟨store, journal'⟩).1 ∧
    (x ⟨store, journal⟩).2.store = (y ⟨store, journal'⟩).2.store

namespace Agree

theorem pure (a : α) : Agree (pure a) (pure a) :=
  fun _ _ _ => ⟨rfl, rfl⟩

theorem throw (e : Error) : Agree (throw e : Run α) (throw e) :=
  fun _ _ _ => ⟨rfl, rfl⟩

theorem ask (query : Storage.Table → Except Error α) : Agree (ask query) (ask query) :=
  fun _ _ _ => ⟨rfl, rfl⟩

theorem changeTable (change : Storage.Table → Except Error α × Storage.Table) :
    Agree (changeTable change) (changeTable change) :=
  fun _ _ _ => ⟨rfl, rfl⟩

theorem changeStore (change : Storage.Store → Except Error α × Storage.Store) :
    Agree (changeStore change) (changeStore change) :=
  fun _ _ _ => ⟨rfl, rfl⟩

/-- The notifier decides on what is written into the journal, and on nothing else. -/
theorem send (notifier notifier' : Notifier) (sent : List Notification) :
    Agree (send notifier sent) (send notifier' sent) :=
  fun _ _ _ => ⟨rfl, rfl⟩

theorem bind {x y : Run α} {f g : α → Run β} (h : Agree x y) (next : ∀ a, Agree (f a) (g a)) :
    Agree (x >>= f) (y >>= g) := by
  intro store journal journal'
  have first := h store journal journal'
  rw [bind_apply, bind_apply]
  rcases ex : x ⟨store, journal⟩ with ⟨result, store', sent⟩
  rcases ey : y ⟨store, journal'⟩ with ⟨result', store'', sent'⟩
  rw [ex, ey] at first
  obtain ⟨rfl, rfl⟩ : result = result' ∧ store' = store'' := first
  cases result with
  | error e => exact ⟨rfl, rfl⟩
  | ok a => exact next a store' sent sent'

/-- What one run comes to, the other comes to after anything else was sent. -/
theorem exists_eq {x y : Run α} (h : Agree x y) {w w' : SpaceState} {result : Except Error α}
    (ran : x w = (result, w')) (journal : List Delivery) :
    ∃ journal', y ⟨w.store, journal⟩ = (result, ⟨w'.store, journal'⟩) := by
  have both := h w.store w.journal journal
  rw [show x ⟨w.store, w.journal⟩ = (result, w') from ran] at both
  rcases ran' : y ⟨w.store, journal⟩ with ⟨result', store', journal'⟩
  rw [ran'] at both
  obtain ⟨rfl, rfl⟩ : result = result' ∧ w'.store = store' := both
  exact ⟨journal', rfl⟩

end Agree

end Run

namespace FactBase

open Storage

variable {base : FactBase} {notifier : Notifier} {active : List Trigger} {cs : List Concept}

theorem agree_openRound (base : FactBase) (active : List Trigger) (cs : List Concept) :
    Run.Agree (base.openRound active cs) (base.openRound active cs) := by
  cases clash : clash? active (Separation.ofConcepts cs).triggers with
  | some trigger =>
    simp only [openRound, clash]
    exact .throw _
  | none =>
    simp only [openRound, clash]
    refine .bind (.changeTable _) fun facts => ?_
    split
    · exact .pure none
    · exact .bind (.ask _) fun firings => .bind (.ask _) fun changes => .pure _

theorem agree_retract (base : FactBase) (facts : List Concept) :
    Run.Agree (base.retract facts) (base.retract facts) := by
  rw [retract]
  split
  · exact .pure 0
  · exact .bind (.changeStore _) fun removal => .pure _

theorem agree_closeRound (base : FactBase) (notifier notifier' : Notifier) (o : Opening) :
    Run.Agree (base.closeRound notifier o) (base.closeRound notifier' o) :=
  .bind (.send notifier notifier' _) fun _ => .bind (agree_retract base _) fun _ =>
    .bind (.changeTable _) fun _ => .pure _

theorem agree_concludeRound (base : FactBase) (notifier notifier' : Notifier) (o : Opening)
    (later : Except Error (List Round)) :
    Run.Agree (base.concludeRound notifier o later) (base.concludeRound notifier' o later) :=
  .bind (.ask _) fun _ => .bind (agree_closeRound base notifier notifier' o) fun _ => .pure _

/-- Whatever notifiers decide, rounds come to the same. -/
theorem ComesTo.exists_comesTo {w w' : SpaceState} {result : Except Error (List Round)}
    (h : ComesTo base notifier active cs w result w') (notifier' : Notifier)
    (journal : List Delivery) : ∃ journal',
      ComesTo base notifier' active cs ⟨w.store, journal⟩ result ⟨w'.store, journal'⟩ := by
  induction h generalizing journal with
  | nil active => exact ⟨journal, .nil active _⟩
  | failed opened =>
    obtain ⟨journal', opened⟩ := (agree_openRound base _ _).exists_eq opened journal
    exact ⟨journal', .failed opened⟩
  | last opened =>
    obtain ⟨journal', opened⟩ := (agree_openRound base _ _).exists_eq opened journal
    exact ⟨journal', .last opened⟩
  | around opened _ concluded ih =>
    obtain ⟨between, opened⟩ := (agree_openRound base _ _).exists_eq opened journal
    obtain ⟨between, inner⟩ := ih between
    obtain ⟨journal', concluded⟩ :=
      (agree_concludeRound base notifier notifier' _ _).exists_eq concluded between
    exact ⟨journal', .around opened inner concluded⟩

theorem agree_addRounds (base : FactBase) (notifier notifier' : Notifier) (active : List Trigger)
    (cs : List Concept) :
    Run.Agree (base.addRounds notifier active cs) (base.addRounds notifier' active cs) := by
  intro store journal journal'
  obtain ⟨result, w', e, run⟩ | endless := comesTo_or_endless base notifier active cs ⟨store, journal⟩
  · obtain ⟨sent, run'⟩ := run.exists_comesTo notifier' journal'
    rw [e, run'.addRounds_eq]
    exact ⟨rfl, rfl⟩
  obtain ⟨result, w', e, run⟩ | endless' :=
    comesTo_or_endless base notifier' active cs ⟨store, journal'⟩
  · obtain ⟨sent, run'⟩ := run.exists_comesTo notifier journal
    rw [e, run'.addRounds_eq]
    exact ⟨rfl, rfl⟩
  · rw [endless, endless']
    exact ⟨rfl, rfl⟩

theorem agree_addUnder (base : FactBase) (notifier notifier' : Notifier)
    (given : Option (List Trigger)) (cs : List Concept) :
    Run.Agree (base.addUnder notifier given cs) (base.addUnder notifier' given cs) := by
  cases given with
  | some active => exact agree_addRounds base notifier notifier' active cs
  | none =>
    rw [addUnder, addUnder, addAll, addAll]
    split
    · exact .pure []
    · exact .bind (.ask _) fun active => agree_addRounds base notifier notifier' active cs

/-! ## What is sent -/

theorem journal_retract (base : FactBase) (facts : List Concept) (w : SpaceState) :
    (base.retract facts w).2.journal = w.journal := by
  rw [retract]
  split
  · rfl
  · rw [Run.snd_bind_of_reads fun _ _ => rfl]
    rfl

/-- The end of a round sends what its firings send. -/
theorem journal_closeRound {o : Opening} {round : Round} {w w' : SpaceState}
    (ok : base.closeRound notifier o w = (.ok round, w')) :
    w'.journal.map (·.notification) =
      w.journal.map (·.notification) ++ round.changes.notifications := by
  obtain ⟨removed, new, v, retracted, added, rfl⟩ := exists_of_closeRound ok
  have kept : v.journal = notifier.deliver w.journal o.changes.notifications :=
    (congrArg (·.2.journal) retracted).symm.trans (journal_retract base o.changes.removals _)
  have stored : v.journal = w'.journal := congrArg (·.2.journal) added
  rw [← stored, kept, Notifier.map_notification_deliver]

/-- Rounds send their notifications from the last round to the first. -/
theorem Addition.journal {rounds : List Round} {w w' : SpaceState}
    (run : Addition base notifier active cs w rounds w') :
    w'.journal.map (·.notification) =
      w.journal.map (·.notification) ++ Round.allNotifications rounds.reverse := by
  -- The induction is on the rounds: between its start and its end, a round has the later ones.
  induction run with
  | nil => simp [Round.allNotifications]
  | @last active cs w w' opened =>
    have start := (onlyAdded_openRound base active cs w).journal
    rw [opened] at start
    simp [Round.allNotifications, show w'.journal = w.journal from start]
  | @around active cs w v u w' o round later opened inner closed ih =>
    have start := (onlyAdded_openRound base active cs w).journal
    rw [opened] at start
    rw [journal_closeRound closed, ih, show v.journal = w.journal from start]
    simp [Round.allNotifications]

/-! ## Main statement -/

/-- Runs, one for each notifier, that come to the same result and store whatever the notifier
decides, and that send the notifications of their rounds if they succeed, those of the last round
first. -/
structure Announces (run : Notifier → Run (List Round)) : Prop where
  /-- The notifier decides neither on the result nor on the store. -/
  agree : ∀ notifier notifier', Run.Agree (run notifier) (run notifier')
  /-- Every notification is sent once. -/
  sends : ∀ {notifier : Notifier} {rounds : List Round} {w w' : SpaceState},
    run notifier w = (.ok rounds, w') → w'.journal.map (·.notification) =
      w.journal.map (·.notification) ++ Round.allNotifications rounds.reverse

/-- Whatever is added, under given triggers or under the stored ones: the notifier decides neither on
the result nor on the store, and if the addition succeeds, the notifications of its rounds have been
sent, each once, from the last round to the first. -/
theorem announces_addUnder (base : FactBase) (given : Option (List Trigger)) (cs : List Concept) :
    Announces fun notifier => base.addUnder notifier given cs where
  agree notifier notifier' := agree_addUnder base notifier notifier' given cs
  sends {notifier rounds w w'} ok := by
    obtain empty | ⟨e, -, failed⟩ | ⟨active, -, same⟩ := addUnder_cases base notifier given cs w
    · obtain ⟨e, rfl⟩ := Prod.mk.inj (empty.symm.trans ok)
      obtain rfl := Except.ok.inj e
      simp [Round.allNotifications]
    · cases (Prod.mk.inj (failed.symm.trans ok)).1
    · exact (addition_of_addRounds (same.symm.trans ok)).journal

/-- A trigger that announces `a` facts and adds a `b` fact for each. -/
private def relay : Trigger where
  name := .atom "relay"
  conditions := [.compound [.atom "a", .atom "$x"]]
  additions := [.compound [.atom "b", .atom "$x"]]
  notifications := [.atom "first"]

/-- A trigger that announces `b` facts. -/
private def listener : Trigger where
  name := .atom "listener"
  conditions := [.compound [.atom "b", .atom "$x"]]
  notifications := [.atom "second"]

/-- The addition of a fact that both triggers come to announce, in an empty space. -/
private def relayedRun (notifier : Notifier) : Except Error (List Round) × SpaceState :=
  addUnder ⟨"home", 9⟩ notifier (some [relay, listener]) [.compound [.atom "a", .atom "c"]]
    ⟨Store.create .memory, []⟩

theorem relayedRun_announces : ∃ rounds w, relayedRun .refusing = (.ok rounds, w) ∧
    (relayedRun .accepting).1 = .ok rounds ∧ (relayedRun .accepting).2.store = w.store ∧
      w.journal.map (·.notification.url) = ["second", "first"] := by
  have found : (roundsOver 3 [relay, listener] [.compound [.atom "a", .atom "c"]] []).toOption.any
      (fun r => (Round.allNotifications r.1.reverse).map (·.url) == ["second", "first"]) =
        true := by decide +kernel
  obtain ⟨rounds, _, w, run, -, told⟩ :=
    (Shows.create .memory []).exists_comesTo_of_any 3 found ⟨"home", 9⟩ .refusing
  have ok : relayedRun .refusing = (.ok rounds, w) := run.addRounds_eq
  have announces := announces_addUnder ⟨"home", 9⟩ (some [relay, listener])
    [.compound [.atom "a", .atom "c"]]
  obtain ⟨result, store⟩ := announces.agree .accepting .refusing (Store.create .memory) [] []
  have sent := announces.sends ok
  refine ⟨rounds, w, ok, result.trans (congrArg Prod.fst ok),
    store.trans (congrArg (·.2.store) ok), ?_⟩
  have urls : w.journal.map (·.notification.url) =
      (w.journal.map (·.notification)).map (·.url) := by simp
  rw [urls, sent, ← beq_iff_eq.mp told]
  rfl

end FactBase

end ConceptSpace
