import ConceptSpace.Proofs.Facts.Following

/-!
# Queries over stored patterns

Facts may hold sets, and variables: triggers are stored, and so are their patterns. A query over
such facts succeeds, and its answers bind all variables of the rules. They are solutions as long as
no variable that two rules share is bound to a concept with variables (`Reached.answers_sound`).
Answers that bind a variable to a variable are left out, but not those that bind it to a compound
with variables inside, which are then taken for variables of the other rules
(`outlineStore_answers_escape`).
-/

namespace ConceptSpace

namespace Concept

/-- Clean concepts without `&` that a query can ask for: without variables, or compounds. -/
structure IsAskable (c : Concept) : Prop extends IsSelfFree c where
  form : c.IsGround ∨ c.isCompound = true

variable {c : Concept} {b : Bindings}

theorem IsAskable.instantiate (h : c.IsAskable) (hb : b.AllValues IsSelfFree) :
    (c.instantiate b).IsAskable where
  toIsSelfFree := h.toIsSelfFree.instantiate hb
  form := by
    rcases h.form with ground | compound
    · rw [h.clean.instantiate_of_isGround ground]
      exact .inl ground
    · exact .inr (isCompound_instantiate h.clean compound)

theorem IsAskable.isPattern_iff (h : c.IsAskable) : c.isPattern = true ↔ ¬ c.IsGround := by
  rw [Concept.isPattern_iff]
  exact ⟨And.right, fun opened => ⟨h.form.resolve_left opened, opened⟩⟩

end Concept

namespace FactBase

open ConceptSpace.Concept (IsSelfFree IsAskable IsEntry)
open Bindings (Extends)
open Storage

/-! ## Sound bindings -/

/-- Variables that two rules share are bound to concepts without variables. -/
def SharesGround (rules : List Concept) (b : Bindings) : Prop :=
  ∀ r ∈ rules, ∀ r' ∈ rules, r ≠ r' → ∀ name ∈ r.vars, name ∈ r'.vars →
    ∀ value, b[name]? = some value → value.IsGround

/-- Bindings of all variables of some rules that are a solution, unless a variable of two rules has
been bound to a concept with variables. -/
structure Sound (facts : Concept → Prop) (rules : List Concept) (b : Bindings) : Prop where
  /-- What is bound are facts. -/
  stored : b.AllValues facts
  /-- All variables of the rules are bound. -/
  bound : ∀ r ∈ rules, ∀ name ∈ r.vars, b[name]? ≠ none
  /-- The rules become facts. -/
  solves : SharesGround rules b → Solves facts rules b

variable {facts : Concept → Prop} {rules patterns ground rest : List Concept} {rule : Concept}
  {b cand extra all : Bindings}

theorem SharesGround.mono (h : SharesGround rules b) (fewer : ∀ r ∈ patterns, r ∈ rules) :
    SharesGround patterns b :=
  fun r hr r' hr' => h r (fewer r hr) r' (fewer r' hr')

theorem Sound.congr (h : Sound facts patterns b) (same : ∀ r, r ∈ rules ↔ r ∈ patterns) :
    Sound facts rules b where
  stored := h.stored
  bound r hr := h.bound r ((same r).mp hr)
  solves shared := (solves_congr same).mpr (h.solves (shared.mono fun r hr => (same r).mpr hr))

theorem sound_nil : Sound facts [] ∅ where
  stored := Bindings.allValues_empty _
  bound := by simp
  solves _ := solves_nil_iff.mpr rfl

/-- Rules without variables only have to be facts. -/
theorem Sound.of_isSplit {kind : Concept → Prop} (clean : ∀ r, kind r → r.Clean)
    (split : IsSplit kind rules patterns ground) (stored : ∀ r ∈ ground, facts r)
    (h : Sound facts patterns b) : Sound facts rules b where
  stored := h.stored
  bound r hr name hn := by
    rcases List.mem_append.mp ((split.mem r).mp hr) with hr | hr
    · exact h.bound r hr name hn
    · rw [(split.groundRules r hr).2] at hn
      simp at hn
  solves shared := (split.solves_iff clean).mpr ⟨stored, h.solves (shared.mono fun r hr =>
    (split.mem r).mpr (List.mem_append_left _ hr))⟩

section Rest

variable (clean : ∀ r ∈ rule :: rest, r.Clean) (hc : Extends rule.vars ∅ cand)
  (fact : facts (rule.instantiate cand))

include hc fact in
theorem sound_singleton (stored : cand.AllValues facts) : Sound facts [rule] cand where
  stored := stored
  bound := by simpa using fun name hn => hc.ne_none_iff.mpr hn
  solves _ := ((solves_singleton_iff hc fact).mp rfl).1

include clean in
/-- Variables shared by instances of rules are shared by the rules. -/
theorem SharesGround.of_instances (nodup : (rule :: rest).Nodup) (hc : Extends rule.vars ∅ cand)
    (hca : cand.IsPartOf all) (hea : extra.IsPartOf all) (h : SharesGround (rule :: rest) all) :
    (∀ r ∈ rest, ∀ name ∈ r.vars, ∀ value, cand[name]? = some value → value.IsGround) ∧
      SharesGround (rest.map (Concept.instantiate cand)) extra := by
  have shared : ∀ r ∈ rest, ∀ name ∈ r.vars, ∀ value, cand[name]? = some value →
      value.IsGround := by
    intro r hr name hn value e
    have own : name ∈ rule.vars := hc.ne_none_iff.mp (by rw [e]; simp)
    have differ : rule ≠ r := fun same => (List.nodup_cons.mp nodup).1 (same ▸ hr)
    exact h rule (by simp) r (by simp [hr]) differ name own hn value (hca e)
  refine ⟨shared, ?_⟩
  intro _ first _ second differ name hn hn' value e
  obtain ⟨r, hr, rfl⟩ := List.mem_map.mp first
  obtain ⟨r', hr', rfl⟩ := List.mem_map.mp second
  have own : ∀ r ∈ rest, name ∈ (r.instantiate cand).vars → name ∈ r.vars :=
    fun r hr hn => (((clean r (by simp [hr])).mem_vars_instantiate_iff (shared r hr)).mp hn).1
  exact h r (by simp [hr]) r' (by simp [hr']) (fun same => differ (by rw [same])) name
    (own r hr hn) (own r' hr' hn') value (hea e)

include clean hc fact in
/-- Bindings of a rule, merged with bindings of the other rules after they have been put into them,
are sound if the parts are. -/
theorem Sound.merge (cleanFacts : ∀ c, facts c → c.Clean) (nodup : (rule :: rest).Nodup)
    (stored : cand.AllValues facts) (h : Sound facts (rest.map (Concept.instantiate cand)) extra)
    (merged : cand.merge? extra = some all) : Sound facts (rule :: rest) all := by
  obtain ⟨hca, hea, names⟩ := isPartOf_of_merge? (fun _ _ e => cleanFacts _ (stored e))
    (fun _ _ e => cleanFacts _ (h.stored e)) merged
  have storedAll : all.AllValues facts := fun name value e =>
    (eq_some_or_of_ne_none_iff hca hea names e).elim (fun e => stored e) fun e => h.stored e
  refine ⟨storedAll, fun r hr name hn => (names name).mpr ?_, fun shared => ?_⟩
  · rcases List.mem_cons.mp hr with rfl | hr
    · exact .inl (hc.ne_none_iff.mpr hn)
    -- A variable that the first rule does not bind is still there in the instance.
    · by_cases free : cand[name]? = none
      · refine .inr (h.bound _ (List.mem_map_of_mem hr) name ?_)
        have isVariable := (List.mem_filter.mp hn).2
        exact (clean r (by simp [hr])).mem_vars_instantiate.mpr
          ⟨name, hn, by simp [Concept.instantiate, free, Concept.vars_atom, isVariable]⟩
      · exact .inl free
  · obtain ⟨ground, shared⟩ := shared.of_instances clean nodup hc hca hea
    have first : Solves facts [rule] cand := ((solves_singleton_iff hc fact).mp rfl).1
    exact solves_of_rest (List.forall_mem_cons.mp clean).2 ground first (h.solves shared)
      (fun _ _ e => cleanFacts _ (storedAll e)) hca hea names

end Rest

/-! ## Answers -/

/-- What an index entry of a fact binds is a fact. -/
theorem mem_of_isEntry {facts : Finset Concept} (closed : ∀ c ∈ facts, ∀ p ∈ c.parts, p ∈ facts)
    {c mask value : Concept} {values : List Concept} (hc : c ∈ facts)
    (entry : IsEntry c mask values) (hv : value ∈ values) : value ∈ facts := by
  rcases eq_or_mem_inside_of_isEntry entry hv with rfl | inside
  · exact hc
  · exact Concept.mem_of_mem_inside closed hc inside

section Pivot

variable {t : Table} {facts : Finset Concept} (closed : ∀ c ∈ facts, ∀ p ∈ c.parts, p ∈ facts)
  (selfFree : ∀ c ∈ facts, IsSelfFree c)
  {rule c : Concept} {rest values : List Concept} (askable : ∀ r ∈ rule :: rest, IsAskable r)
  (nodup : (rule :: rest).Nodup) {base : FactBase} {depth : Nat}
  (answered : ∀ rules : List Concept, (∀ r ∈ rules, IsAskable r) → rules.length ≤ rest.length →
    ∃ found, base.answersWithin t false depth rules = .ok found ∧
      ∀ b ∈ found, Sound (· ∈ facts) rules b)

include closed selfFree askable nodup answered in
/-- The answers that the entry of a fact leads to are sound, if the remaining rules are answered
soundly. -/
theorem exists_sound_answersOfEntry {places : Bindings}
    (placed : rule.match? rule.mask = some places) (hc : c ∈ facts)
    (entry : IsEntry c rule.mask values) :
    ∃ found, base.answersOfEntry t false depth places rest values = .ok found ∧
      ∀ b ∈ found, Sound (· ∈ facts) (rule :: rest) b := by
  rw [answersOfEntry]
  cases candidate : bindEntry places values with
  | none => exact ⟨[], rfl, by simp⟩
  | some cand =>
    obtain ⟨extended, among, becomes⟩ :=
      becomes_of_bindEntry (askable rule (by simp)).clean placed entry candidate
    have fact : rule.instantiate cand ∈ facts := becomes ▸ hc
    have stored : cand.AllValues (· ∈ facts) := fun name value e =>
      mem_of_isEntry closed hc entry (among e)
    have valuesFree : cand.AllValues IsSelfFree := fun _ _ e => selfFree _ (stored e)
    by_cases isPartial : (!false && !cand.isGround) = true
    · exact ⟨[], by simp only [if_pos isPartial]; rfl, by simp⟩
    simp only [if_neg isPartial]
    by_cases last : rest = []
    · subst last
      refine ⟨[cand], rfl, fun b hb => ?_⟩
      obtain rfl := List.mem_singleton.mp hb
      exact sound_singleton extended fact stored
    · have instances : ∀ r ∈ rest.map (Concept.instantiate cand), IsAskable r := by
        intro _ hr
        obtain ⟨q, hq, rfl⟩ := List.mem_map.mp hr
        exact (askable q (by simp [hq])).instantiate valuesFree
      have mem_remaining := fun r =>
        Concept.mem_distinct (c := r) fun r hr => (instances r hr).clean
      obtain ⟨completions, e, sound⟩ := answered
        (Concept.distinct (rest.map (Concept.instantiate cand)))
        (fun r hr => instances r ((mem_remaining r).mp hr))
        ((Concept.distinct_sublist _).length_le.trans (Nat.le_of_eq (List.length_map _)))
      refine ⟨_, completedBy_of_ne_nil last
        (fun r hr => (askable r (by simp [hr])).toIsSelfFree) valuesFree e, fun b hb => ?_⟩
      obtain ⟨extra, he, merged⟩ := List.mem_filterMap.mp hb
      exact Sound.merge (fun r hr => (askable r hr).clean) extended fact
        (fun c hc => (selfFree c hc).clean) nodup stored
        ((sound extra he).congr fun r => (mem_remaining r).symm) merged

end Pivot

variable {t : Table} {facts : Finset Concept}

/-- Rules are answered soundly, if there are enough pivots for them. -/
theorem Indexed.exists_sound_answersWithin (h : Indexed t facts)
    (selfFree : ∀ c ∈ facts, IsSelfFree c) (base : FactBase) {depth : Nat} {rules : List Concept}
    (askable : ∀ r ∈ rules, IsAskable r) (enough : rules.length < depth) :
    ∃ found, base.answersWithin t false depth rules = .ok found ∧
      ∀ b ∈ found, Sound (· ∈ facts) rules b := by
  -- Every pivot uses up a rule, and what is put into the others does not add to them.
  induction depth generalizing rules with
  | zero => simp at enough
  | succ depth ih =>
    have clean : ∀ r, IsAskable r → r.Clean := fun _ hr => hr.clean
    obtain ⟨patterns, ground, parts, split⟩ :=
      exists_isSplit clean (fun _ hr => hr.isPattern_iff) askable
    rcases h.answersWithin_cases base depth clean parts split with ⟨-, e⟩ | ⟨stored, found⟩
    · exact ⟨[], e, by simp⟩
    rcases found with ⟨rfl, e⟩ | ⟨rule, rest, places, perm, shorter, -, placed, found⟩
    · refine ⟨[∅], e, fun b hb => ?_⟩
      obtain rfl := List.mem_singleton.mp hb
      exact sound_nil.of_isSplit clean split stored
    · have patterns : ∀ r ∈ rule :: rest, IsAskable r := fun r hr =>
        (split.openRules r (perm.mem_iff.mp hr)).1
      obtain ⟨entries, listed, -, mem_entries⟩ :=
        h.exists_maskEntries_eq (patterns rule (by simp)).clean.clean_mask
      obtain ⟨answers, e, related⟩ := Sequence.exists_mapM_eq_ok fun values hv => by
        obtain ⟨c, hc, -, entry⟩ := (mem_entries values).mp hv
        exact exists_sound_answersOfEntry h.closed selfFree patterns (perm.nodup_iff.mpr split.nodup)
          (fun others askable fewer => ih askable (by omega)) placed hc entry
      refine ⟨_, found entries answers listed e, fun b hb => ?_⟩
      obtain ⟨part, hp, hb⟩ := List.mem_flatten.mp (List.mem_filter.mp hb).1
      obtain ⟨_, -, sound⟩ := Sequence.exists_of_mem_right related hp
      exact ((sound b hb).congr fun r => perm.mem_iff.symm).of_isSplit clean split stored

/-! ## Main statement -/

/-- Whatever clean facts without `&` were added and removed, a query succeeds, and each answer binds
all variables of the rules. If it binds no variable that two rules share to a concept with
variables, it binds nothing else, and makes every rule a stored fact. -/
theorem Reached.answers_sound {s : Store} (h : Reached IsSelfFree s) (base : FactBase)
    {rules : List Concept} (askable : ∀ r ∈ rules, IsAskable r) :
    ∃ found, base.answers s.table rules = .ok found ∧ ∀ b ∈ found,
      (∀ r ∈ rules, ∀ name ∈ r.vars, b[name]? ≠ none) ∧
        (SharesGround rules b → Solves (IsFact s.table) rules b) := by
  obtain ⟨-, -, facts, indexed, kind⟩ := h.exists_indexed
  have selfFree := kind fun _ hc _ hp => hc.of_mem_parts hp
  have same : (IsFact s.table) = (· ∈ facts) := funext fun c => propext indexed.isFact_iff
  obtain ⟨found, e, sound⟩ :=
    indexed.exists_sound_answersWithin selfFree base askable (Nat.lt_succ_self rules.length)
  exact ⟨found, answers_eq_ok e, fun b hb => ⟨(sound b hb).bound, same ▸ (sound b hb).solves⟩⟩

private def members : Concept :=
  .compound [.atom ":", .atom "ann"]

private def memberStore : Store :=
  (Change.run ⟨"home", 2⟩ (Store.create .memory) (.add [members])).2

private def memberRule : Concept :=
  .compound [.atom ":", .atom "$p"]

theorem memberStore_answers : Reached IsSelfFree memberStore ∧ IsAskable memberRule ∧
    ∃ found, FactBase.answers ⟨"home", 2⟩ memberStore.table [memberRule] = .ok found ∧
      ∃ b ∈ found, Solves (IsFact memberStore.table) [memberRule] b := by
  have storable : ∀ c ∈ [members], Storable c := by
    simpa using ⟨by decide, by decide⟩
  have selfFree : ∀ c ∈ [members], IsSelfFree c := by
    simpa using ⟨by decide, by decide⟩
  have reached : Reached IsSelfFree memberStore :=
    .add_create .memory ⟨"home", 2⟩ storable selfFree (by decide)
  have asked : (answersOver ([members] ++ [members].flatMap Concept.inside) false 1
      [memberRule]).toOption.any (!·.isEmpty) = true := by decide
  have askable : IsAskable memberRule := ⟨⟨by decide, by decide⟩, .inr rfl⟩
  have rules : ∀ r ∈ [memberRule], IsAskable r := by simpa using askable
  obtain ⟨found, e, sound⟩ := reached.answers_sound ⟨"home", 2⟩ rules
  obtain ⟨_, e', asked⟩ :=
    (indexed_add_create .memory ⟨"home", 2⟩ storable).exists_answers_eq_of_any ⟨"home", 2⟩ asked
  obtain rfl := Except.ok.inj (e.symm.trans e')
  obtain ⟨b, hb⟩ := List.exists_mem_of_ne_nil found (by simpa using asked)
  have shared : SharesGround [memberRule] b := by
    intro r hr r' hr' differ
    rw [List.mem_singleton.mp hr, List.mem_singleton.mp hr'] at differ
    exact absurd rfl differ
  exact ⟨reached, askable, found, e, b, hb, (sound b hb).2 shared⟩

/-- A fact with a variable inside a compound. -/
private def outline : Concept :=
  .compound [.atom "a", .compound [.atom "f", .atom "$y"]]

private def filled : Concept :=
  .compound [.atom "b", .compound [.atom "f", .atom "c"]]

/-- What they are stored as. -/
private def outlineFacts : List Concept :=
  [outline, filled] ++ [outline, filled].flatMap Concept.inside

private def outlineStore : Store :=
  (Change.run ⟨"home", 2⟩ (Store.create .memory) (.add [outline, filled])).2

private def outlineRules : List Concept :=
  [.compound [.atom "a", .atom "$x"], .compound [.atom "b", .atom "$x"]]

/-- An answer can bind a variable that no rule has, and make a rule something that is no fact. -/
theorem outlineStore_answers_escape : Reached IsSelfFree outlineStore ∧
    (∀ r ∈ outlineRules, IsAskable r) ∧
      ∃ found, FactBase.answers ⟨"home", 2⟩ outlineStore.table outlineRules = .ok found ∧
        ∃ b ∈ found, (∃ name : String, b[name]? ≠ none ∧ ∀ r ∈ outlineRules, name ∉ r.vars) ∧
          ∃ r ∈ outlineRules, ¬ IsFact outlineStore.table (r.instantiate b) := by
  have storable : ∀ c ∈ [outline, filled], Storable c := by
    simpa using ⟨⟨by decide, by decide⟩, ⟨by decide, by decide⟩⟩
  have selfFree : ∀ c ∈ [outline, filled], IsSelfFree c := by
    simpa using ⟨⟨by decide, by decide⟩, ⟨by decide, by decide⟩⟩
  have askable : ∀ r ∈ outlineRules, IsAskable r := by
    simpa [outlineRules] using ⟨⟨⟨by decide, by decide⟩, .inr rfl⟩,
      ⟨⟨by decide, by decide⟩, .inr rfl⟩⟩
  have reached : Reached IsSelfFree outlineStore :=
    .add_create .memory ⟨"home", 2⟩ storable selfFree (by decide)
  have indexed : Indexed outlineStore.table outlineFacts.toFinset :=
    indexed_add_create .memory ⟨"home", 2⟩ storable
  have escapes : (answersOver outlineFacts false 2 outlineRules).toOption.any
      (·.any fun b => b["$y"]?.isSome && outlineRules.any (·.instantiate b ∉ outlineFacts)) =
        true := by decide +kernel
  obtain ⟨found, e, escapes⟩ := indexed.exists_answers_eq_of_any ⟨"home", 2⟩ escapes
  obtain ⟨b, hb, escapes⟩ := List.any_eq_true.mp escapes
  obtain ⟨bound, r, hr, missing⟩ : b["$y"]?.isSome = true ∧ ∃ r ∈ outlineRules,
      r.instantiate b ∉ outlineFacts := by simpa using escapes
  refine ⟨reached, askable, found, e, b, hb,
    ⟨"$y", Option.isSome_iff_ne_none.mp bound, by decide⟩, r, hr, fun fact => missing ?_⟩
  exact List.mem_toFinset.mp (indexed.isFact_iff.mp fact)

end FactBase

end ConceptSpace
