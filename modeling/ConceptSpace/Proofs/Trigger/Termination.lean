import Mathlib.Combinatorics.Enumerative.DoubleCounting
import ConceptSpace.Proofs.Trigger.Collision
import ConceptSpace.Proofs.Trigger.Following
import ConceptSpace.Proofs.Trigger.Rounds

/-!
# Additions that come to an end

Every round but the last makes something new (`exists_news_of_openRound`): a fact under a key that
no stored fact has, or a trigger under a name that no active one has; and on the way from round to
round nothing of this is lost. So the rounds of an addition end if all the concepts that it deals
with are among finitely many, after at most one more round than these can make news
(`exists_comesTo_of_adds`, `Addition.length_le`). Over clean facts, with clean triggers and
concepts, so do the queries of the rounds, and there are no more news than keys
(`endsWithin_of_adds`).

It takes clean concepts. A query of others can go on for ever, since a rule with a value put in can
be read as several rules, the same ones among them (`echo_endless`). And keys do not suffice to
count the news: a concept and a component may have the same key, and then the one makes a fact and
the other a trigger (`twofoldRun_length`).
-/

namespace ConceptSpace

/-! ## News -/

/-- What a round makes new. -/
inductive News where
  /-- A trigger with a name. -/
  | trigger (name : String)
  /-- A fact with a key. -/
  | fact (key : String)
  deriving DecidableEq

/-- What a concept makes new: the trigger that it is a component of, or else a fact. -/
def Concept.news (c : Concept) : News :=
  match Component.ofConcept? c with
  | some d => .trigger d.trigger.key
  | none => .fact c.key

theorem Concept.news_of_component {c : Concept} {d : Component}
    (h : Component.ofConcept? c = some d) : c.news = .trigger d.trigger.key := by
  rw [news, h]

theorem Concept.news_of_fact {c : Concept} (h : Component.ofConcept? c = none) :
    c.news = .fact c.key := by
  rw [news, h]

namespace FactBase

open Storage

variable {base : FactBase} {notifier : Notifier} {active : List Trigger} {cs : List Concept}
  {w w' : SpaceState}

/-- Whether there is an active trigger with a name, or a stored fact with a key. -/
def isKnown (active : List Trigger) (t : Table) : News → Bool
  | .trigger name => active.any (·.name.key == name)
  | .fact key => contains t (.atom key)

theorem isKnown_fact (active : List Trigger) (t : Table) (c : Concept) :
    isKnown active t (.fact c.key) = contains t c := rfl

/-! ## One round -/

/-- Facts are new because one of the given concepts is. -/
theorem exists_root_of_newFacts {t : Table} (h : base.newFacts t cs ≠ []) :
    ∃ c ∈ cs, contains t c = false ∧ c.key ∈ (base.newFacts t cs).map Concept.key := by
  have roots : base.missing t (Concept.distinct cs) ≠ [] := by
    intro none
    exact h (by simp [newFacts, none])
  obtain ⟨c, hc⟩ := List.exists_mem_of_ne_nil _ roots
  obtain ⟨given, fresh⟩ := mem_missing.mp hc
  refine ⟨c, (Sequence.distinctBy_sublist _ _).subset given, fresh, ?_⟩
  rw [newFacts]
  simp only [List.isEmpty_iff, roots, if_false]
  exact Sequence.mem_keys_distinctBy.mpr
    (List.mem_map_of_mem (List.mem_append_left _ hc))

/-- What adding makes new is stored. -/
theorem contains_of_mem_keys_new {t : Table} {new : List Concept}
    (ok : (base.add cs t).1 = .ok new) {c : Concept} (hc : c.key ∈ new.map Concept.key) :
    contains (base.add cs t).2 c = true := by
  obtain ⟨d, hd, same⟩ := List.mem_map.mp hc
  have stored : Key.fact d ∈ factKeys (base.add cs t).2 := by
    rw [(factKeys_add ok).2]
    exact Finset.mem_union_right _ (List.mem_toFinset.mpr (List.mem_map_of_mem hd))
  have key : Key.fact c = Key.fact d := by rw [Key.fact, Key.fact, same]
  rw [contains, Table.contains_eq_isSome, key]
  exact (mem_factKeys.mp stored).1

/-- A round without anything new is the last. -/
theorem openRound_eq_none {v : SpaceState}
    (free : clash? active (Separation.ofConcepts cs).triggers = none)
    (stored : Run.changeTable (base.add (Separation.ofConcepts cs).facts) w = (.ok [], v))
    (defined : (Separation.ofConcepts cs).triggers = []) :
    base.openRound active cs w = (.ok none, v) := by
  rw [openRound]
  simp only [free]
  rw [Run.bind_apply, stored, defined]
  rfl

/-- A round without concepts is the last. -/
theorem openRound_nil (base : FactBase) (active : List Trigger) (w : SpaceState) :
    base.openRound active [] w = (.ok none, w) :=
  openRound_eq_none rfl (changeTable_add_nil base w) rfl

/-- Facts that a round adds are made of one of its concepts, which was not known. -/
theorem exists_news_of_facts {new : List Concept}
    (added : Run.changeTable (base.add (Separation.ofConcepts cs).facts) w = (.ok new, w'))
    (some : new ≠ []) (later : List Trigger) :
    ∃ c ∈ cs, isKnown active w.store.table c.news = false ∧
      isKnown later w'.store.table c.news = true := by
  obtain ⟨ok, table⟩ := Run.eq_of_changeTable added
  obtain rfl := (factKeys_add ok).1
  obtain ⟨c, hc, fresh, isNew⟩ := exists_root_of_newFacts some
  obtain ⟨hc, noComponent⟩ := List.mem_filter.mp hc
  refine ⟨c, hc, ?_, ?_⟩ <;>
    rw [Concept.news_of_fact (Option.isNone_iff_eq_none.mp noComponent), isKnown_fact]
  · exact fresh
  · rw [table]
    exact contains_of_mem_keys_new ok isNew

/-- Triggers that a round defines have the names of some of its components, which were free. -/
theorem exists_news_of_triggers (free : clash? active (Separation.ofConcepts cs).triggers = none)
    (some : (Separation.ofConcepts cs).triggers ≠ []) (t t' : Table) :
    ∃ c ∈ cs, isKnown active t c.news = false ∧
      isKnown (active ++ (Separation.ofConcepts cs).triggers) t' c.news = true := by
  obtain ⟨trigger, ht⟩ := List.exists_mem_of_ne_nil _ some
  obtain ⟨d, hd, named⟩ := Trigger.exists_component_of_mem_ofComponents ht
  obtain ⟨c, hc, stated⟩ := List.mem_filterMap.mp hd
  refine ⟨c, hc, ?_, ?_⟩ <;> rw [Concept.news_of_component stated, isKnown, named]
  · exact Bool.eq_false_iff.mpr (List.find?_eq_none.mp free trigger ht)
  · exact List.any_eq_true.mpr ⟨trigger, List.mem_append_right _ ht, beq_self_eq_true _⟩

/-- A round that is not the last makes something new of one of its concepts. What was known
before stays known. -/
theorem exists_news_of_openRound {o : Opening}
    (ok : base.openRound active cs w = (.ok (some o), w')) :
    (∀ n, isKnown active w.store.table n = true → isKnown o.active w'.store.table n = true) ∧
      ∃ c ∈ cs, isKnown active w.store.table c.news = false ∧
        isKnown o.active w'.store.table c.news = true := by
  obtain ⟨new, free, added, last | ⟨firings, changes, -, -, opened⟩⟩ := exists_of_openRound rfl ok
  · cases last.2.2
  obtain rfl := Option.some.inj opened
  constructor
  · rintro (name | key) known
    · rw [isKnown] at known ⊢
      rw [List.any_append, known, Bool.true_or]
    · rw [isKnown, contains, (Run.eq_of_changeTable added).2]
      exact (add_spec base _ w.store.table).1 _ known
  · by_cases facts : new = []
    · refine exists_news_of_triggers free (fun defined => ?_) _ _
      rw [openRound_eq_none free (facts ▸ added) defined] at ok
      cases (Prod.mk.inj ok).1
    · exact exists_news_of_facts added facts _

/-! ## All rounds -/

/-- The concepts that an addition deals with: the given ones, and those that the firings of its
rounds add. -/
inductive Adds (base : FactBase) : List Trigger → List Concept → SpaceState → Concept → Prop where
  /-- A given one. -/
  | given {active : List Trigger} {cs : List Concept} {w : SpaceState} {c : Concept} (h : c ∈ cs) :
      Adds base active cs w c
  /-- One of the rounds behind the first. -/
  | caused {active : List Trigger} {cs : List Concept} {w v : SpaceState} {o : Opening}
      {c : Concept} (opened : base.openRound active cs w = (.ok (some o), v))
      (later : Adds base o.active o.changes.additions v c) : Adds base active cs w c

theorem adds_iff_of_some {o : Opening} (opened : base.openRound active cs w = (.ok (some o), w'))
    {c : Concept} :
    Adds base active cs w c ↔ c ∈ cs ∨ Adds base o.active o.changes.additions w' c := by
  constructor
  · rintro (given | ⟨opened', later⟩)
    · exact .inl given
    · obtain ⟨same, rfl⟩ := Prod.mk.inj (opened.symm.trans opened')
      obtain rfl := Option.some.inj (Except.ok.inj same)
      exact .inr later
  · rintro (given | later)
    · exact .given given
    · exact .caused opened later

theorem adds_iff_of_none (opened : base.openRound active cs w = (.ok none, w')) {c : Concept} :
    Adds base active cs w c ↔ c ∈ cs := by
  refine ⟨?_, .given⟩
  rintro (given | ⟨opened', -⟩)
  · exact given
  · cases (Prod.mk.inj (opened.symm.trans opened')).1

/-- An addition that succeeds reports the concepts that it deals with, besides the given ones. -/
theorem Addition.adds_iff {rounds : List Round}
    (run : Addition base notifier active cs w rounds w') {c : Concept} :
    Adds base active cs w c ↔ c ∈ cs ++ (rounds.map (·.changes.additions)).flatten := by
  induction run with
  | nil active w => simp [adds_iff_of_none (openRound_nil base active w)]
  | last opened => simp [adds_iff_of_none opened]
  | around opened _ closed ih =>
    obtain ⟨_, _, _, -, -, rfl⟩ := exists_of_closeRound closed
    rw [adds_iff_of_some opened, ih]
    exact List.mem_append.symm

/-- The news that there can still be of some concepts. -/
def unknown (U : Finset Concept) (active : List Trigger) (t : Table) : Finset News :=
  (U.image Concept.news).filter fun n => isKnown active t n = false

theorem card_unknown_le (U : Finset Concept) (active : List Trigger) (t : Table) :
    (unknown U active t).card ≤ (U.image Concept.news).card :=
  Finset.card_filter_le _ _

/-- Every round but the last uses up some of the news. -/
theorem card_unknown_lt {U : Finset Concept} {o : Opening}
    (ok : base.openRound active cs w = (.ok (some o), w')) (among : ∀ c ∈ cs, c ∈ U) :
    (unknown U o.active w'.store.table).card < (unknown U active w.store.table).card := by
  obtain ⟨kept, c, hc, before, after⟩ := exists_news_of_openRound ok
  have named : c.news ∈ U.image Concept.news := Finset.mem_image_of_mem _ (among c hc)
  refine Finset.card_lt_card (Finset.ssubset_iff_of_subset ?_ |>.mpr ⟨c.news, ?_, ?_⟩)
  · intro n hn
    obtain ⟨named, later⟩ := Finset.mem_filter.mp hn
    refine Finset.mem_filter.mpr ⟨named, Bool.eq_false_iff.mpr fun known => ?_⟩
    rw [kept n known] at later
    cases later
  · exact Finset.mem_filter.mpr ⟨named, before⟩
  · intro hn
    rw [(Finset.mem_filter.mp hn).2] at after
    cases after

/-- The rounds of an addition that succeeds are at most one more than the news. -/
theorem Addition.length_le {rounds : List Round}
    (run : Addition base notifier active cs w rounds w') {U : Finset Concept}
    (among : ∀ c, Adds base active cs w c → c ∈ U) :
    rounds.length ≤ (unknown U active w.store.table).card + 1 := by
  induction run with
  | nil => exact Nat.zero_le _
  | last => exact Nat.le_add_left ..
  | around opened _ _ ih =>
    have later := ih fun c hc => among c (.caused opened hc)
    have less := card_unknown_lt opened fun c hc => among c (.given hc)
    exact Nat.succ_le_succ (Nat.le_trans later less)

/-- The rounds of an addition that deals with finitely many concepts come to an outcome. -/
theorem exists_comesTo_of_adds {U : Finset Concept}
    (among : ∀ c, Adds base active cs w c → c ∈ U) :
    ∃ result w', ComesTo base notifier active cs w result w' := by
  -- The induction is on the number of news that there can still be.
  induction news : (unknown U active w.store.table).card using Nat.strong_induction_on
    generalizing active cs w with
  | _ n ih =>
    cases cs with
    | nil => exact ⟨_, _, .nil active w⟩
    | cons c cs =>
      rcases opened : base.openRound active (c :: cs) w with ⟨e | _ | o, v⟩
      · exact ⟨_, _, .failed opened⟩
      · exact ⟨_, _, .last opened⟩
      · have less := card_unknown_lt (U := U) opened fun c hc => among c (.given hc)
        obtain ⟨later, u, inner⟩ :=
          ih _ (news ▸ less) (fun c hc => among c (.caused opened hc)) rfl
        exact ⟨_, _, .around opened inner (Prod.eta _).symm⟩

/-! ## Clean concepts -/

/-- An addition of clean concepts under clean triggers deals with clean concepts only. -/
theorem Adds.clean {c : Concept} (h : Adds base active cs w c) (facts : IsClean w.store.table)
    (rules : ∀ trigger ∈ active, trigger.IsOf Concept.Clean) (given : ∀ c ∈ cs, c.Clean) :
    c.Clean := by
  induction h with
  | given hc => exact given _ hc
  | caused opened _ ih =>
    obtain ⟨kept, gives⟩ := (IsClean.isKept base).openRound rules given _ facts
    rw [opened] at kept gives
    have prepared := gives _ rfl _ rfl
    exact ih kept prepared.active prepared.additions

/-- Concepts make no more news than they have keys, if the keys tell the news. -/
theorem card_news_le {U : Finset Concept}
    (determined : ∀ c ∈ U, ∀ d ∈ U, c.key = d.key → c.news = d.news) :
    (U.image Concept.news).card ≤ (U.image Concept.key).card := by
  refine Finset.card_le_card_of_forall_subsingleton
    (fun n key => ∃ c ∈ U, c.news = n ∧ c.key = key) ?_ ?_
  · intro n hn
    obtain ⟨c, hc, rfl⟩ := Finset.mem_image.mp hn
    exact ⟨c.key, Finset.mem_image_of_mem _ hc, c, hc, rfl, rfl⟩
  · rintro key - _ ⟨-, c, hc, rfl, same⟩ _ ⟨-, d, hd, rfl, rfl⟩
    exact determined c hc d hd same

/-! ## Main statement -/

/-- An addition whose rounds and queries end, and which takes at most a number of rounds if it
succeeds. -/
structure EndsWithin (base : FactBase) (notifier : Notifier) (active : List Trigger)
    (cs : List Concept) (w : SpaceState) (n : Nat) : Prop where
  /-- The rounds come to an outcome, which is not that of a query without end. -/
  ends : ∃ result w', base.rounds notifier active cs w = some (result, w') ∧
    result ≠ .error .endlessQuery
  /-- If they succeed, they are not more. -/
  length : ∀ {rounds : List Round} {w' : SpaceState},
    base.rounds notifier active cs w = some (.ok rounds, w') → rounds.length ≤ n

theorem EndsWithin.mono {m n : Nat} (h : EndsWithin base notifier active cs w m) (le : m ≤ n) :
    EndsWithin base notifier active cs w n where
  ends := h.ends
  length ok := Nat.le_trans (h.length ok) le

theorem EndsWithin.of_adds {result : Except Error (List Round)}
    (run : ComesTo base notifier active cs w result w') (ended : result ≠ .error .endlessQuery)
    {U : Finset Concept} (among : ∀ c, Adds base active cs w c → c ∈ U) :
    EndsWithin base notifier active cs w ((U.image Concept.news).card + 1) where
  ends := ⟨result, w', rounds_eq_some_iff.mpr run, ended⟩
  length ok := Nat.le_trans ((rounds_eq_some_iff.mp ok).addition.length_le among)
    (Nat.succ_le_succ (card_unknown_le U active w.store.table))

/-- The rounds of an addition that deals with finitely many concepts end. Unless a round asks a
query that goes on for ever, the addition ends with them, after at most one round more than there
are concepts, and after at most one round more than there are keys if the keys tell the news. Over
clean facts, with clean triggers and clean concepts, both is so. -/
theorem endsWithin_of_adds {U : Finset Concept} (among : ∀ c, Adds base active cs w c → c ∈ U) :
    ((∃ w', base.rounds notifier active cs w = some (.error .endlessQuery, w')) ∨
      EndsWithin base notifier active cs w (U.card + 1) ∧
        ((∀ c ∈ U, ∀ d ∈ U, c.key = d.key → c.news = d.news) →
          EndsWithin base notifier active cs w ((U.image Concept.key).card + 1))) ∧
    (IsClean w.store.table → (∀ trigger ∈ active, trigger.IsOf Concept.Clean) →
      (∀ c ∈ cs, c.Clean) →
        EndsWithin base notifier active cs w ((U.image Concept.key).card + 1)) := by
  classical
  obtain ⟨result, w', run⟩ : ∃ result w', ComesTo base notifier active cs w result w' :=
    exists_comesTo_of_adds among
  constructor
  · by_cases endless : result = .error .endlessQuery
    · exact .inl ⟨w', rounds_eq_some_iff.mpr (endless ▸ run)⟩
    · have ends := EndsWithin.of_adds run endless among
      exact .inr ⟨ends.mono (Nat.succ_le_succ Finset.card_image_le), fun determined =>
        ends.mono (Nat.succ_le_succ (card_news_le determined))⟩
  · intro facts rules given
    -- Only the concepts that the addition deals with are known to be clean.
    have only : ∀ c ∈ U.filter (Adds base active cs w), c.Clean := fun c hc =>
      (Finset.mem_filter.mp hc).2.clean facts rules given
    have ends := EndsWithin.of_adds run (run.ne_endlessQuery facts rules given)
      fun c hc => Finset.mem_filter.mpr ⟨among c hc, hc⟩
    have few : ((U.filter (Adds base active cs w)).image Concept.news).card ≤
        ((U.filter (Adds base active cs w)).image Concept.key).card :=
      card_news_le fun c hc d hd same => congrArg _ (((only c hc).key_inj (only d hd)).mp same)
    exact ends.mono (Nat.succ_le_succ (few.trans
      (Finset.card_le_card (Finset.image_subset_image (Finset.filter_subset _ U)))))

/-- A trigger that defines another one when it sees an `A` fact. -/
private def founding : Trigger where
  name := .atom "t"
  conditions := [.compound [.atom "$x", .atom "A"]]
  additions := [.compound [.atom "u", .compound [.atom "@adds", .atom "z"]]]

private def firstCause : Concept :=
  .compound [.atom "k", .atom "A"]

/-- The addition of an `A` fact under the trigger, in an empty space. -/
private def foundingRun : Except Error (List Round) × SpaceState :=
  addRounds ⟨"home", 9⟩ .accepting [founding] [firstCause] ⟨Store.create .memory, []⟩

theorem foundingRun_eq : ∃ rounds w, ComesTo ⟨"home", 9⟩ .accepting [founding] [firstCause]
      ⟨Store.create .memory, []⟩ (.ok rounds) w ∧
    rounds.map (·.changes.additions) = [founding.additions, []] := by
  have found : (roundsOver 2 [founding] [firstCause] []).toOption.any
      (·.1.map (·.changes.additions) == [founding.additions, []]) = true := by decide +kernel
  obtain ⟨rounds, _, w, run, -, added⟩ :=
    (Shows.create .memory []).exists_comesTo_of_any 2 found _ _
  exact ⟨rounds, w, run, beq_iff_eq.mp added⟩

/-- The addition deals with the fact and the component that it leads to, in two rounds. -/
theorem foundingRun_endsWithin :
    ∃ rounds w, foundingRun = (.ok rounds, w) ∧ rounds.length = 2 ∧
      EndsWithin ⟨"home", 9⟩ .accepting [founding] [firstCause] ⟨Store.create .memory, []⟩ 3 := by
  obtain ⟨rounds, w, run, added⟩ := foundingRun_eq
  have number := congrArg List.length added
  rw [List.length_map] at number
  have among : ∀ c, Adds ⟨"home", 9⟩ [founding] [firstCause] ⟨Store.create .memory, []⟩ c →
      c ∈ insert firstCause founding.additions.toFinset := by
    intro c hc
    rw [run.addition.adds_iff, added] at hc
    simpa using hc
  have rules : ∀ trigger ∈ [founding], trigger.IsOf Concept.Clean := by
    simp only [List.mem_singleton, forall_eq]
    intro role
    cases role <;> decide
  have given : ∀ c ∈ [firstCause], c.Clean := by decide
  exact ⟨rounds, w, run.addRounds_eq, number, (endsWithin_of_adds among).2 .empty rules given⟩

/-! ## A query without end -/

/-- A word which is one while it stands alone. Behind the start of a comment, it ends the comment
and goes on with three concepts. -/
private def ending : Concept := .atom "<<q */ , [a $x] , [[/*] [$x]] , [z>>"

private def endings : List Concept := [.compound [.atom "a", ending], .atom "z>>"]

/-- The facts that they are stored as. -/
private def endingFacts : List Concept := endings ++ endings.flatMap Concept.inside

private def endingStore : Store :=
  ((Change.add endings).run ⟨"home", 2⟩ (Store.create .memory)).2

/-- A rule for which the word is a value. -/
private def valueRule : Concept := .compound [.atom "a", .atom "$x"]

/-- A rule that starts like a comment. -/
private def commentRule : Concept := .compound [.atom "/*", .atom "$x"]

/-- What is asked for first, and what is read when the word is put in. -/
private def echoes : List (List Concept) :=
  [[valueRule, commentRule], [valueRule, commentRule, .atom "z>>"]]

private theorem endings_storable : ∀ c ∈ endings, Storable c := by
  simpa [endings] using ⟨⟨by decide, by decide⟩, by decide, by decide⟩

private theorem endingStore_indexed : Indexed endingStore.table endingFacts.toFinset :=
  indexed_add_create .memory ⟨"home", 2⟩ endings_storable

/-- No fact starts like a comment, so that the pivot is the other rule. -/
private theorem endingStore_pivot : pivot endingStore.table [valueRule, commentRule] =
    .ok (some (valueRule.mask, valueRule, [commentRule])) := by
  obtain ⟨⟨⟩, -⟩ | ⟨rule, rest, chosen, perm, most⟩ :=
    endingStore_indexed.exists_pivot_eq [valueRule, commentRule]
  have counts : ¬ UInt64.ofNat (total endingFacts.toFinset (Key.maskCount valueRule.mask)) ≤
      UInt64.ofNat (total endingFacts.toFinset (Key.maskCount commentRule.mask)) := by
    decide +kernel
  rcases List.mem_pair.mp (perm.mem_iff.mp (List.mem_cons_self ..)) with rfl | rfl
  · obtain rfl : rest = [commentRule] := List.perm_singleton.mp (List.perm_cons _ |>.mp perm)
    exact chosen
  · exact absurd (most valueRule (by simp)) counts

/-- The index entry of the pivot has the word at its variable. -/
private theorem endingStore_maskEntries :
    maskEntries endingStore.table valueRule.mask = .ok [[ending]] := by
  have entries : entriesOver endingFacts valueRule.mask = [[ending]] := by decide
  rw [endingStore_indexed.maskEntries_eq (by decide), entries]

/-- With the word put into it, the rule that starts like a comment is read as all of the rules. -/
private theorem substitute_ending : ∃ places candidate,
    valueRule.match? valueRule.mask = some places ∧ bindEntry places [ending] = some candidate ∧
      candidate.isGround = true ∧ liftSource (Source.substitute candidate.values [commentRule]) =
        .ok [valueRule, commentRule, .atom "z>>"] := by
  have read : ((valueRule.match? valueRule.mask).bind (bindEntry · [ending])).map (fun candidate =>
      (candidate.isGround, (Source.substitute candidate.values [commentRule]).toOption)) =
        some (true, some [valueRule, commentRule, .atom "z>>"]) := by decide +kernel
  obtain ⟨candidate, led, read⟩ := Option.map_eq_some_iff.mp read
  obtain ⟨places, placed, bound⟩ := Option.bind_eq_some_iff.mp led
  obtain ⟨isGround, substituted⟩ := Prod.mk.inj read
  refine ⟨places, candidate, placed, bound, isGround, ?_⟩
  rw [Sequence.eq_ok_of_toOption substituted]
  rfl

/-- However deep a search for the rules is, it comes to rules that it has to search for again. -/
private theorem answersWithin_echoes (depth : Nat) {rules : List Concept} (h : rules ∈ echoes) :
    FactBase.answersWithin ⟨"home", 2⟩ endingStore.table false depth rules =
      .error .endlessQuery := by
  induction depth generalizing rules with
  | zero => rfl
  | succ depth ih =>
    have parts : ∀ rules ∈ echoes,
        ((Concept.distinct rules).partition (·.isPattern)).1 = [valueRule, commentRule] ∧
          ∀ r ∈ ((Concept.distinct rules).partition (·.isPattern)).2, r = .atom "z>>" := by decide
    obtain ⟨patterns, ground⟩ := parts rules h
    rcases split : (Concept.distinct rules).partition (·.isPattern) with ⟨ps, gs⟩
    rw [split] at patterns ground
    obtain rfl : ps = [valueRule, commentRule] := patterns
    have stored : ¬ (FactBase.existing ⟨"home", 2⟩ endingStore.table gs).length < gs.length := by
      rw [endingStore_indexed.existing_lt_iff _ fun r hr => by rw [ground r hr]; decide,
        not_not]
      intro r hr
      rw [ground r hr]
      decide
    obtain ⟨places, candidate, placed, bound, isGround, remaining⟩ := substitute_ending
    have entry : FactBase.answersOfEntry ⟨"home", 2⟩ endingStore.table false depth places
        [commentRule] [ending] = .error .endlessQuery := by
      have known : [valueRule, commentRule, .atom "z>>"] ∈ echoes := by simp [echoes]
      rw [answersOfEntry, bound]
      simp only [isGround, completedBy, remaining, Sequence.ok_bind, ih known]
      rfl
    rw [answersWithin_eq_of_pivot split stored endingStore_pivot placed endingStore_maskEntries,
      List.mapM_cons, entry]
    rfl

/-- A trigger with the rules as its conditions. -/
private def echo : Trigger where
  name := .atom "t"
  conditions := [valueRule, commentRule]

/-- The components that define it. -/
private def echoComponents : List Concept :=
  echo.conditions.map fun rule => .compound [echo.name, .compound [.atom "@matches", rule]]

private theorem answers_echo :
    FactBase.answers ⟨"home", 2⟩ endingStore.table echo.conditions = .error .endlessQuery :=
  answers_eq_endlessQuery_iff.mpr fun depth => answersWithin_echoes depth (List.mem_cons_self ..)

/-- The round that defines the trigger asks for its conditions. -/
private theorem openRound_echo : openRound ⟨"home", 2⟩ [] echoComponents ⟨endingStore, []⟩ =
    (.error .endlessQuery, ⟨endingStore, []⟩) := by
  have noFact : (Separation.ofConcepts echoComponents).facts = [] := by decide
  have triggers : (Separation.ofConcepts echoComponents).triggers = [echo] := by decide
  have fires : ∀ trigger ∈ [echo], FactBase.firingsOfTrigger ⟨"home", 2⟩ endingStore.table trigger =
      .error .endlessQuery := by
    simp only [List.mem_singleton, forall_eq, firingsOfTrigger, answers_echo]
    rfl
  have asked : FactBase.firings ⟨"home", 2⟩ endingStore.table [echo] [] [echo] =
      .error .endlessQuery := by
    rw [firings, Sequence.mapM_eq_error (by simp) fires]
    rfl
  rw [openRound, noFact, triggers]
  change (Run.changeTable (FactBase.add ⟨"home", 2⟩ []) >>= _) _ = _
  rw [Run.bind_of_ok (changeTable_add_nil ⟨"home", 2⟩ _)]
  change (Run.ask _ >>= _) _ = _
  rw [Run.bind_apply, Run.ask]
  simp only [List.nil_append, asked]

/-- The addition deals with the two components only, but it does not end: the query of its round
goes on for ever. -/
theorem echo_endless : Reached Concept.Clean endingStore ∧
    ∃ U : Finset Concept, U.card = 2 ∧
      (∀ c, Adds ⟨"home", 2⟩ [] echoComponents ⟨endingStore, []⟩ c → c ∈ U) ∧
        FactBase.search ⟨"home", 2⟩ endingStore.table false echo.conditions = none ∧
          ∀ n, ¬ EndsWithin ⟨"home", 2⟩ .accepting [] echoComponents ⟨endingStore, []⟩ n := by
  refine ⟨.add_create .memory ⟨"home", 2⟩ endings_storable
    (fun c hc => (endings_storable c hc).clean) (by decide), echoComponents.toFinset,
    by decide, fun c hc => ?_, search_eq_none_iff.mpr answers_echo, fun n ended => ?_⟩
  · cases hc with
    | given hc => exact List.mem_toFinset.mpr hc
    | caused opened => cases (Prod.mk.inj (openRound_echo.symm.trans opened)).1
  · have run : ComesTo ⟨"home", 2⟩ .accepting [] echoComponents ⟨endingStore, []⟩
        (.error .endlessQuery) ⟨endingStore, []⟩ := .failed openRound_echo
    obtain ⟨result, w', ran, finite⟩ := ended.ends
    cases (rounds_eq_some_iff.mpr run).symm.trans ran
    exact finite rfl

/-! ## Keys do not suffice -/

private def pair : Concept :=
  .compound [.atom "p", .atom "q"]

/-- What stands behind the name of a trigger that adds the pair when it sees `p`. -/
private def roles : List Concept :=
  [.compound [.atom "@matches", .atom "p"], .compound [.atom "@adds", pair]]

/-- Facts with two words in front of the roles. -/
private def apart : List Concept :=
  roles.map fun role => .compound [.atom "<<a", .atom "b>>", role]

/-- Components with the same keys, which have one word in front. -/
private def joined : List Concept :=
  roles.map fun role => .compound [.atom "<<a b>>", role]

/-- Triggers that add the first fact when they see the pair, the second one when they see the first,
and both components when they see the second. -/
private def twofold : List Trigger :=
  [{ name := .atom "A", conditions := [pair],
     additions := [.compound [.atom "b>>", .atom "<<a", .atom "&", roles[0]]] },
   { name := .atom "B", conditions := [.compound [.atom "$o", .atom "$c", roles[0]]],
     additions := [.compound [.atom "$c", .atom "$o", .atom "&", roles[1]]] },
   { name := .atom "C", conditions := [.compound [.atom "$o", .atom "$c", roles[1]]],
     additions := joined }]

/-- The trigger that the components define. -/
private def late : Trigger where
  name := .atom "<<a b>>"
  conditions := [.atom "p"]
  additions := [pair]

/-- The addition of the pair under the triggers, in an empty space. -/
private def twofoldRun : Except Error (List Round) × SpaceState :=
  addRounds ⟨"home", 9⟩ .accepting twofold [pair] ⟨Store.create .memory, []⟩

theorem twofoldRun_eq : ∃ rounds w,
    ComesTo ⟨"home", 9⟩ .accepting twofold [pair] ⟨Store.create .memory, []⟩ (.ok rounds) w ∧
      rounds.map (·.changes.additions) = [[apart[0]], [apart[1]], joined, [pair], []] := by
  have found : (roundsOver 5 twofold [pair] []).toOption.any (·.1.map (·.changes.additions) ==
      [[apart[0]], [apart[1]], joined, [pair], []]) = true := by decide +kernel
  obtain ⟨rounds, _, w, run, -, added⟩ :=
    (Shows.create .memory []).exists_comesTo_of_any 5 found _ _
  exact ⟨rounds, w, run, beq_iff_eq.mp added⟩

/-- There are five rounds, while the concepts that the addition deals with have three keys. -/
theorem twofoldRun_length : ∃ keys : Finset String, keys.card = 3 ∧
    (∀ c, Adds ⟨"home", 9⟩ twofold [pair] ⟨Store.create .memory, []⟩ c → c.key ∈ keys) ∧
      ∃ rounds w, twofoldRun = (.ok rounds, w) ∧ rounds.length = 5 := by
  obtain ⟨rounds, w, run, added⟩ := twofoldRun_eq
  have number := congrArg List.length added
  rw [List.length_map] at number
  refine ⟨((pair :: apart).map Concept.key).toFinset, by decide, fun c hc => ?_,
    rounds, w, run.addRounds_eq, number⟩
  rw [run.addition.adds_iff, added] at hc
  have keys : ∀ c ∈ [pair] ++ [[apart[0]], [apart[1]], joined, [pair], []].flatten,
      c.key ∈ ((pair :: apart).map Concept.key).toFinset := by decide
  exact keys c hc

end FactBase

end ConceptSpace
