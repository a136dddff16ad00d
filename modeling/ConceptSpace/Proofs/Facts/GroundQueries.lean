import ConceptSpace.Proofs.Facts.Following
import ConceptSpace.Proofs.Facts.SingleRule

/-!
# Queries over facts without variables

Over facts without variables, every answer to a query is a solution. Determinate rules have the same
answers in any order, as far as these make no set of a sequence (`Reached.answers_perm`), and one
determinate rule is answered as by fitting it to each stored fact (`Reached.answers_eq_scan`).

It is not so for rules that leave a choice. An index entry holds one choice of values for its mask,
so that the answers depend on which of the rules is the pivot (`coupleStore_answers_differ`); and
the mask forgets that a variable is repeated, so that the choice can be one that does not fit,
although there is another that does (`bagStore_answers_miss`).
-/

namespace ConceptSpace

namespace Concept

/-- Clean concepts without `&` and without variables; they may hold sets. -/
structure IsGroundFact (c : Concept) : Prop extends IsSelfFree c where
  /-- The concept has no variables. -/
  ground : c.IsGround

theorem IsGroundFact.of_mem_parts {c p : Concept} (h : c.IsGroundFact) (hp : p ∈ c.parts) :
    p.IsGroundFact where
  toIsSelfFree := h.toIsSelfFree.of_mem_parts hp
  ground := h.ground.of_mem_parts hp

/-- A compound that a query looks up by its mask. -/
structure IsPatternRule (p : Concept) : Prop extends IsSelfFree p where
  /-- It is a compound. -/
  compound : p.isCompound = true
  /-- It has a variable. -/
  opened : ¬ p.IsGround
  /-- It has another word, too. -/
  plain : p.HasPlainWord

theorem IsPatternRule.isAskable {p : Concept} (h : p.IsPatternRule) : p.IsAskable where
  toIsSelfFree := h.toIsSelfFree
  form := .inr h.compound

end Concept

namespace FactBase

open ConceptSpace.Concept (IsGroundFact IsAskable IsDeterminate KeepsOrder IsPatternRule)
open Storage

variable {t : Table} {facts : Finset Concept} {rules : List Concept} {b : Bindings}

theorem SharesGround.of_allValues (h : b.AllValues Concept.IsGround) : SharesGround rules b :=
  fun _ _ _ _ _ _ _ _ _ e => h e

/-- Rules with another word than variables are anchored. -/
theorem anchored_of_hasPlainWord (plain : ∀ r ∈ rules, r.HasPlainWord) : Anchored rules :=
  fun _ closed r hr => closed r hr (.inl (plain r hr))

section Ground

variable (h : Indexed t facts) (ground : ∀ c ∈ facts, IsGroundFact c) (base : FactBase)
  (askable : ∀ r ∈ rules, IsAskable r)

include ground in
/-- What a solution over facts without variables binds has no variables. -/
theorem Solves.allValues_ground (clean : ∀ r ∈ rules, r.Clean)
    (solves : Solves (· ∈ facts) rules b) : b.AllValues Concept.IsGround := fun _ _ e =>
  (solves.allValues_of_closed ground (fun _ hc _ hp => hc.of_mem_parts hp) clean e).ground

include h ground askable in
/-- Over facts without variables, every answer is a solution. -/
theorem Indexed.exists_answers_solve : ∃ found, base.answers t rules = .ok found ∧
    ∀ b ∈ found, Solves (· ∈ facts) rules b := by
  obtain ⟨found, e, sound⟩ := h.exists_sound_answersWithin
    (fun c hc => (ground c hc).toIsSelfFree) base askable (Nat.lt_succ_self rules.length)
  refine ⟨found, answers_eq_ok e, fun b hb => (sound b hb).solves (.of_allValues fun _ _ e => ?_)⟩
  exact (ground _ ((sound b hb).stored e)).ground

include h ground askable in
/-- Over facts without variables, determinate rules are answered by their solutions, as far as these
make no set of a sequence. -/
theorem Indexed.exists_answers_iff (small : t.size < Text.wordCount)
    (determinate : ∀ r ∈ rules, r.IsDeterminate) : ∃ found, base.answers t rules = .ok found ∧
      ∀ b, (∀ r ∈ rules, KeepsOrder b r) →
        (b ∈ found ↔ Solves (· ∈ facts) rules b ∧ Anchored rules) := by
  have clean : ∀ r ∈ rules, r.Clean := fun r hr => (askable r hr).clean
  obtain ⟨found, e, complete⟩ := h.exists_complete_answersWithin small
    (fun c hc => (ground c hc).toIsSelfFree) base askable (Nat.lt_succ_self rules.length)
  have e := answers_eq_ok e
  obtain ⟨_, e', solve⟩ := h.exists_answers_solve ground base askable
  obtain rfl := Except.ok.inj (e'.symm.trans e)
  have complete : ∀ b, (∀ r ∈ rules, KeepsOrder b r) → Solves (· ∈ facts) rules b →
      (b ∈ _ ↔ Solves (· ∈ facts) rules b ∧ Anchored rules ∧ b.isGround = true) :=
    fun b keeps solves => complete b
      ⟨determinate, keeps, .of_allValues (solves.allValues_ground ground clean)⟩
  refine ⟨_, e, fun b keeps => ?_⟩
  constructor
  · intro hb
    have solves := solve b hb
    exact ⟨solves, ((complete b keeps solves).mp hb).2.1⟩
  · rintro ⟨solves, anchored⟩
    refine (complete b keeps solves).mpr ⟨solves, anchored, ?_⟩
    exact isGround_of_allValues (solves.allValues_ground ground clean)

include ground in
/-- Fitting a rule to a fact gives a solution. -/
theorem solves_of_match? {c p : Concept} (hp : p.Clean) (hc : c ∈ facts)
    (found : c.match? p = some b) : Solves (· ∈ facts) [p] b := by
  have fits := hp.fits_of_match? (ground c hc).clean found
  refine ((solves_singleton_iff fits.toExtends ?_).mp rfl).1
  rwa [fits.instantiates]

end Ground

/-! ## The order of the rules -/

/-- Whatever clean facts without variables and `&` were added and removed, determinate rules have
the same answers in any order, as far as these make no set of a sequence: the solutions, if all
variables are reached from rules that do not fit everything. -/
theorem Reached.answers_perm {s : Store} (h : Reached IsGroundFact s) (base : FactBase)
    {rules others : List Concept} (askable : ∀ r ∈ rules, IsAskable r)
    (determinate : ∀ r ∈ rules, r.IsDeterminate) (perm : others.Perm rules) :
    ∃ found found', base.answers s.table rules = .ok found ∧
      base.answers s.table others = .ok found' ∧ ∀ b, (∀ r ∈ rules, KeepsOrder b r) →
        (b ∈ found ↔ b ∈ found') ∧
          (b ∈ found ↔ Solves (IsFact s.table) rules b ∧ Anchored rules) := by
  obtain ⟨small, -, facts, indexed, kind⟩ := h.exists_indexed
  have ground := kind fun _ hc _ hp => hc.of_mem_parts hp
  have same : IsFact s.table = (· ∈ facts) := funext fun c => propext indexed.isFact_iff
  have mem : ∀ r, r ∈ others ↔ r ∈ rules := fun r => perm.mem_iff
  obtain ⟨found, e, answers⟩ := indexed.exists_answers_iff ground base askable small determinate
  obtain ⟨found', e', answers'⟩ := indexed.exists_answers_iff ground base
    (fun r (hr : r ∈ others) => askable r ((mem r).mp hr)) small
    fun r hr => determinate r ((mem r).mp hr)
  refine ⟨found, found', e, e', fun b keeps => ?_⟩
  rw [answers b keeps, answers' b fun r hr => keeps r ((mem r).mp hr), solves_congr mem,
    anchored_congr fun r _ => mem r, same]
  exact ⟨.rfl, .rfl⟩

private def words (texts : List String) : Concept :=
  .compound (texts.map .atom)

/-- A store of a set with two members. -/
def coupleStore : Store :=
  ((Change.add [words [":", "a", "b"]]).run ⟨"home", 2⟩ (Store.create .memory)).2

theorem coupleStore_reached : Reached IsGroundFact coupleStore :=
  .add_create .memory ⟨"home", 2⟩ (by simpa using ⟨by decide, by decide⟩)
    (by simpa using ⟨⟨by decide, by decide⟩, by decide⟩) (by decide)

/-- What the set is stored as. -/
def coupleFacts : List Concept :=
  [words [":", "a", "b"], .atom ":", .atom "a", .atom "b"]

theorem coupleStore_indexed : Indexed coupleStore.table coupleFacts.toFinset :=
  indexed_add_create .memory ⟨"home", 2⟩ (by simpa using ⟨by decide, by decide⟩)

/-- Rules that ask for one member each. -/
private def memberRules : List Concept :=
  [words [":", "$x", "a"], words [":", "$y", "b"]]

private def memberBindings : Bindings :=
  ((∅ : Bindings).insert "$x" (.atom "b")).insert "$y" (.atom "a")

theorem coupleStore_answers_perm : Reached IsGroundFact coupleStore ∧
    ∃ found found', FactBase.answers ⟨"home", 2⟩ coupleStore.table memberRules = .ok found ∧
      FactBase.answers ⟨"home", 2⟩ coupleStore.table memberRules.reverse = .ok found' ∧
        memberBindings ∈ found ∧ memberBindings ∈ found' := by
  have askable : ∀ r ∈ memberRules, IsAskable r := by
    simpa [memberRules] using ⟨⟨⟨by decide, by decide⟩, .inr rfl⟩,
      ⟨⟨by decide, by decide⟩, .inr rfl⟩⟩
  obtain ⟨found, found', e, e', answers⟩ := coupleStore_reached.answers_perm ⟨"home", 2⟩ askable
    (by decide) (List.reverse_perm memberRules)
  obtain ⟨same, found_iff⟩ := answers memberBindings (by decide)
  have solves : Solves (IsFact coupleStore.table) memberRules memberBindings := by
    refine ⟨fun name => ?_, ?_⟩
    · have vars : (words [":", "$x", "a"]).vars = ["$x"] ∧
          (words [":", "$y", "b"]).vars = ["$y"] := by decide
      rcases eq_or_ne name "$y" with rfl | second
      · simp [memberRules, memberBindings, vars]
      rcases eq_or_ne name "$x" with rfl | first
      · simp [memberRules, memberBindings, vars]
      · simp [memberRules, memberBindings, vars, first, second, first.symm, second.symm]
    · simp only [coupleStore_indexed.isFact_iff]
      decide
  have anchored : Anchored memberRules := anchored_of_hasPlainWord (by
    simpa [memberRules] using ⟨⟨"a", by decide, by decide⟩, ⟨"b", by decide, by decide⟩⟩)
  have member := found_iff.mpr ⟨solves, anchored⟩
  exact ⟨coupleStore_reached, found, found', e, e', member, same.mp member⟩

/-- Rules the first of which leaves a choice. -/
def choiceRules : List Concept :=
  [words [":", "$x", "$y"], words [":", "$x", "a"]]

theorem answers_choiceRules :
    FactBase.answers ⟨"home", 2⟩ coupleStore.table choiceRules = .ok [] ∧
      ∃ found, FactBase.answers ⟨"home", 2⟩ coupleStore.table choiceRules.reverse = .ok found ∧
        found ≠ [] := by
  have none : (answersOver coupleFacts false 2 choiceRules).toOption.any (·.isEmpty) = true := by
    decide +kernel
  have some : (answersOver coupleFacts false 2 choiceRules.reverse).toOption.any
      (!·.isEmpty) = true := by decide +kernel
  obtain ⟨_, e, none⟩ := coupleStore_indexed.exists_answers_eq_of_any ⟨"home", 2⟩ none
  obtain ⟨found, e', some⟩ := coupleStore_indexed.exists_answers_eq_of_any ⟨"home", 2⟩ some
  obtain rfl := List.isEmpty_iff.mp none
  exact ⟨e, found, e', by simpa using some⟩

/-- Rules that leave a choice can have other answers in another order. -/
theorem coupleStore_answers_differ : Reached IsGroundFact coupleStore ∧
    (∀ r ∈ choiceRules, IsAskable r) ∧ choiceRules.reverse.Perm choiceRules ∧
      ∃ found found', FactBase.answers ⟨"home", 2⟩ coupleStore.table choiceRules = .ok found ∧
        FactBase.answers ⟨"home", 2⟩ coupleStore.table choiceRules.reverse = .ok found' ∧
          ∃ b, b ∈ found' ∧ b ∉ found := by
  have askable : ∀ r ∈ choiceRules, IsAskable r := by
    simpa [choiceRules] using ⟨⟨⟨by decide, by decide⟩, .inr rfl⟩,
      ⟨⟨by decide, by decide⟩, .inr rfl⟩⟩
  obtain ⟨e, found', e', some⟩ := answers_choiceRules
  obtain ⟨b, hb⟩ := List.exists_mem_of_ne_nil found' some
  exact ⟨coupleStore_reached, askable, List.reverse_perm _, [], found', e, e', b, hb, by simp⟩

/-! ## Index and scan -/

/-- Whatever clean facts without variables and `&` were added and removed, the answers to one rule
and what fitting the rule to the stored facts finds are solutions of the rule, and they are the same
if the rule is determinate. -/
theorem Reached.answers_eq_scan {s : Store} (h : Reached IsGroundFact s) (base : FactBase)
    {p : Concept} (isRule : IsPatternRule p) :
    ∃ found, base.answers s.table [p] = .ok found ∧
      (∀ b ∈ found, Solves (IsFact s.table) [p] b) ∧
      (∀ c b, IsFact s.table c → c.match? p = some b → Solves (IsFact s.table) [p] b) ∧
      (p.IsDeterminate → ∀ b, b ∈ found ↔ ∃ c, IsFact s.table c ∧ c.match? p = some b) := by
  obtain ⟨-, -, facts, indexed, kind⟩ := h.exists_indexed
  have ground := kind fun _ hc _ hp => hc.of_mem_parts hp
  have same : IsFact s.table = (· ∈ facts) := funext fun c => propext indexed.isFact_iff
  have clean : ∀ r ∈ [p], r.Clean := by simpa using isRule.clean
  obtain ⟨found, e, solve⟩ := indexed.exists_answers_solve ground base
    (show ∀ r ∈ [p], IsAskable r by simpa using isRule.isAskable)
  rw [same]
  have scanned : ∀ c b, c ∈ facts → c.match? p = some b → Solves (· ∈ facts) [p] b :=
    fun c b hc => solves_of_match? ground isRule.clean hc
  refine ⟨found, e, solve, scanned, fun determinate b => ?_⟩
  obtain ⟨_, e', answers⟩ := indexed.exists_answers_match base isRule.clean
    (isRule.isAskable.isPattern_iff.mpr isRule.opened) isRule.plain determinate false
  obtain rfl := Except.ok.inj (e'.symm.trans e)
  rw [answers, and_iff_right_of_imp]
  rintro ⟨c, hc, fits⟩
  exact isGround_of_allValues ((scanned c b hc fits).allValues_ground ground clean)

/-- A set with a member that it has twice. -/
private def bag : Concept := words [":", "a", "b", "b"]

private def bagStore : Store :=
  ((Change.add [bag]).run ⟨"home", 2⟩ (Store.create .memory)).2

private theorem bag_storable : ∀ c ∈ [bag], Storable c := by
  simpa using ⟨by decide, by decide⟩

private theorem bagStore_reached : Reached IsGroundFact bagStore :=
  .add_create .memory ⟨"home", 2⟩ bag_storable
    (by simpa using ⟨⟨by decide, by decide⟩, by decide⟩) (by decide)

private theorem bagStore_indexed :
    Indexed bagStore.table [bag, .atom ":", .atom "a", .atom "b", .atom "b"].toFinset :=
  indexed_add_create .memory ⟨"home", 2⟩ bag_storable

/-- A rule with one open member. -/
private def openMemberRule : Concept := words [":", "$x", "a", "b"]

theorem bagStore_answers_scan : Reached IsGroundFact bagStore ∧ IsPatternRule openMemberRule ∧
    ∃ found, FactBase.answers ⟨"home", 2⟩ bagStore.table [openMemberRule] = .ok found ∧
      ∃ b ∈ found, bag.match? openMemberRule = some b := by
  have isRule : IsPatternRule openMemberRule :=
    ⟨⟨by decide, by decide⟩, rfl, by decide, "a", by decide, by decide⟩
  obtain ⟨found, e, -, -, scanned⟩ := bagStore_reached.answers_eq_scan ⟨"home", 2⟩ isRule
  have fits : (bag.match? openMemberRule).isSome = true := by decide
  obtain ⟨b, fits⟩ := Option.isSome_iff_exists.mp fits
  have fact : IsFact bagStore.table bag := bagStore_indexed.isFact_iff.mpr (by simp)
  exact ⟨bagStore_reached, isRule, found, e, b,
    (scanned (by decide) b).mpr ⟨bag, fact, fits⟩, fits⟩

/-- A rule that asks for a member twice. -/
private def twiceRule : Concept := words [":", "$x", "$x", "$y"]

/-- A query can have no answer for a rule that fits a fact. -/
theorem bagStore_answers_miss : Reached IsGroundFact bagStore ∧ IsPatternRule twiceRule ∧
    FactBase.answers ⟨"home", 2⟩ bagStore.table [twiceRule] = .ok [] ∧
      ∃ c b, IsFact bagStore.table c ∧ c.match? twiceRule = some b := by
  have isRule : IsPatternRule twiceRule :=
    ⟨⟨by decide, by decide⟩, rfl, by decide, ":", by decide, by decide⟩
  obtain ⟨found, places, placed, e, answers⟩ := bagStore_indexed.exists_answers_singleton
    ⟨"home", 2⟩ isRule.clean (isRule.isAskable.isPattern_iff.mpr isRule.opened) false
  obtain rfl : found = [] := by
    refine List.eq_nil_iff_forall_not_mem.mpr fun b hb => ?_
    obtain ⟨-, c, hc, -, values, entry, bound⟩ := (answers b).mp hb
    have unfit : ∀ c ∈ [bag, .atom ":", .atom "a", .atom "b", .atom "b"],
        ((twiceRule.match? twiceRule.mask).bind fun places =>
          (c.maskValues? twiceRule.mask).bind (bindEntry places)) = none := by decide
    have := unfit c (List.mem_toFinset.mp hc)
    rw [placed, entry.read] at this
    exact absurd (bound.symm.trans this) (by simp)
  have fits : (bag.match? twiceRule).isSome = true := by decide
  obtain ⟨b, fits⟩ := Option.isSome_iff_exists.mp fits
  exact ⟨bagStore_reached, isRule, e, bag, b, bagStore_indexed.isFact_iff.mpr (by simp), fits⟩

end FactBase

end ConceptSpace
