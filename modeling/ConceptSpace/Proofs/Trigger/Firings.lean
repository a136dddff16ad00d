import ConceptSpace.Proofs.Facts.Join
import ConceptSpace.Trigger.Round

/-!
# The firings that facts complete

A firing is found for a fact exactly if its bindings solve the conditions of its trigger and make
one of them this fact (`exists_firingsOfFact_eq`). A round finds each firing for its new facts once
(`exists_firings_eq`), since the name of the trigger and the bindings tell firings apart
(`Firing.eq_of_identity`). What firings add are the instances of their templates
(`Changes.mem_additions_ofFirings`).
-/

namespace ConceptSpace

open ConceptSpace.Concept (IsPlainFact IsRule)

/-! ## Telling firings apart -/

namespace Bindings

/-- The variables with the keys of their values tell lists of variables with values apart. -/
theorem eq_of_flatMap_keys {l l' : List (String × Concept)} (hl : ∀ pair ∈ l, pair.2.Clean)
    (hl' : ∀ pair ∈ l', pair.2.Clean)
    (h : (l.flatMap fun pair => [pair.1, pair.2.key]) =
      l'.flatMap fun pair => [pair.1, pair.2.key]) : l = l' := by
  induction l generalizing l' with
  | nil =>
    cases l' with
    | nil => rfl
    | cons => simp at h
  | cons pair l ih =>
    cases l' with
    | nil => simp at h
    | cons pair' l' =>
      simp only [List.flatMap_cons, List.cons_append, List.nil_append, List.cons.injEq] at h
      obtain ⟨name, key, rest⟩ := h
      have value : pair.2 = pair'.2 := ((hl pair (by simp)).key_inj (hl' pair' (by simp))).mp key
      rw [ih (fun p hp => hl p (by simp [hp])) (fun p hp => hl' p (by simp [hp])) rest,
        Prod.ext name value]

/-- Their keys tell clean bindings apart. -/
theorem eq_of_keys {b c : Bindings} (hb : b.AllValues Concept.Clean)
    (hc : c.AllValues Concept.Clean) (h : b.keys = c.keys) : b = c :=
  Std.ExtTreeMap.toList_inj.mp <| eq_of_flatMap_keys
    (fun _ hp => hb (Std.ExtTreeMap.mem_toList_iff_getElem?_eq_some.mp hp))
    (fun _ hp => hc (Std.ExtTreeMap.mem_toList_iff_getElem?_eq_some.mp hp)) h

end Bindings

/-- Firings of triggers with different names, under clean bindings, are told apart by their
identities. -/
theorem Firing.eq_of_identity {active : List Trigger} (names : (active.map (·.name.key)).Nodup)
    {f g : Firing} (hf : f.trigger ∈ active) (hg : g.trigger ∈ active)
    (cleanf : f.bindings.AllValues Concept.Clean) (cleang : g.bindings.AllValues Concept.Clean)
    (h : f.identity = g.identity) : f = g := by
  obtain ⟨name, keys⟩ := List.cons.inj h
  have trigger : f.trigger = g.trigger := List.inj_on_of_nodup_map names hf hg name
  have bindings : f.bindings = g.bindings := Bindings.eq_of_keys cleanf cleang keys
  cases f
  cases g
  simp_all

/-! ## The conditions of a trigger -/

/-- A trigger that only adds, and whose firings depend on nothing but plain facts. -/
structure Trigger.IsRegular (t : Trigger) : Prop where
  /-- There is a condition. -/
  nonempty : t.conditions ≠ []
  /-- The conditions are plain compounds that do not fit everything. -/
  conditions : ∀ c ∈ t.conditions, c.IsPlain ∧ c.isCompound = true ∧ c.HasPlainWord
  /-- What is added is plain. -/
  additions : ∀ a ∈ t.additions, a.IsPlain
  /-- The conditions bind each variable of what is added. -/
  bound : ∀ a ∈ t.additions, ∀ name ∈ a.vars, ∃ c ∈ t.conditions, name ∈ c.vars
  /-- Nothing is removed. -/
  removals : t.removals = []

theorem Trigger.IsRegular.isRule {t : Trigger} (h : t.IsRegular) {c : Concept}
    (hc : c ∈ t.conditions) : IsRule c := by
  obtain ⟨plain, compound, word⟩ := h.conditions c hc
  exact ⟨plain, .inr ⟨compound, word⟩⟩

namespace FactBase

open Storage

variable {t : Table} {facts : Finset Concept} {base : FactBase} {fact : Concept} {trigger : Trigger}
  {active : List Trigger}

/-- The values of a solution of conditions are plain facts. -/
theorem allValues_of_solves (plain : ∀ c ∈ facts, IsPlainFact c) (regular : trigger.IsRegular)
    {b : Bindings} (h : Solves (· ∈ facts) trigger.conditions b) : b.AllValues IsPlainFact :=
  h.allValues plain fun _ hr => (regular.isRule hr).clean

/-- The bindings found for a fact and a condition, with the remaining conditions. -/
def bindingsOfPick (base : FactBase) (t : Table) (fact : Concept) (pick : Concept × List Concept) :
    Except Error (List Bindings) :=
  match fact.match? pick.1 with
  | none => return []
  | some bindings => base.completions t bindings pick.2

/-- What fitting a pattern to a fact binds are facts. -/
theorem Indexed.stored_of_match? (h : Indexed t facts) {p : Concept} {b : Bindings} (hp : p.Clean)
    (hf : fact ∈ facts) (found : fact.match? p = some b) : b.AllValues (· ∈ facts) := by
  have fits := hp.fits_of_match? (h.storable fact hf).clean found
  intro name value e
  have hn : name ∈ p.vars := fits.ne_none_iff.mp (by simp [e])
  rcases hp.mem_inside_instantiate hn e with rfl | inside
  · exact fits.instantiates ▸ hf
  · rw [fits.instantiates] at inside
    exact Concept.mem_of_mem_inside h.closed hf inside

section Fact

variable (h : Indexed t facts) (plain : ∀ c ∈ facts, IsPlainFact c)

include h plain in
/-- The bindings found for a fact and a condition are the solutions that make the condition this
fact. -/
theorem exists_bindingsOfPick_eq (regular : trigger.IsRegular) (hf : fact ∈ facts)
    {condition : Concept} {remaining : List Concept}
    (picked : (condition, remaining) ∈ Matcher.picks trigger.conditions) :
    ∃ found, base.bindingsOfPick t fact (condition, remaining) = .ok found ∧
      ∀ b, b ∈ found ↔
        Solves (· ∈ facts) trigger.conditions b ∧ condition.instantiate b = fact := by
  have perm := Matcher.perm_of_mem_picks picked
  have isRule : ∀ r ∈ condition :: remaining, IsRule r := fun r hr =>
    regular.isRule (perm.mem_iff.mpr hr)
  have rule := isRule condition (by simp)
  have fits : ∀ b, Solves (· ∈ facts) trigger.conditions b → condition.instantiate b = fact →
      ∃ found, fact.match? condition = some found ∧ found.IsPartOf b := by
    rintro b solves rfl
    have values := allValues_of_solves plain regular solves
    refine rule.clean.exists_match?_instantiate rule.noSet (fun _ _ e => (values e).clean)
      (fun _ _ e => (values e).noSet) fun name hn => ?_
    exact (solves.binds name).mpr ⟨condition, perm.mem_iff.mpr (by simp), hn⟩
  cases matched : fact.match? condition with
  | none =>
    refine ⟨[], by rw [bindingsOfPick, matched]; rfl, fun b => ?_⟩
    simp only [List.not_mem_nil, false_iff]
    rintro ⟨solves, same⟩
    obtain ⟨found, e, -⟩ := fits b solves same
    simp [matched] at e
  | some cand =>
    have fit := rule.clean.fits_of_match? (h.storable fact hf).clean matched
    have values : cand.AllValues IsPlainFact := fun _ _ e =>
      plain _ (h.stored_of_match? rule.clean hf matched e)
    obtain ⟨found, e, -, completed⟩ := exists_completedBy_eq plain isRule
      (fun rules isRule _ => h.exists_answers_eq_ok plain base isRule) fit.toExtends values
      (fit.instantiates ▸ hf)
    refine ⟨found, by rw [bindingsOfPick, matched]; exact e, fun b => (completed b).trans ?_⟩
    rw [← solves_congr fun r => perm.mem_iff]
    refine and_congr_right fun solves => ?_
    constructor
    · intro part
      rw [← fit.instantiates]
      refine Concept.instantiate_congr fun name hn => ?_
      obtain ⟨value, e⟩ := Option.ne_none_iff_exists'.mp (fit.ne_none_iff.mpr hn)
      rw [e, part e]
    · intro same
      obtain ⟨found, e, part⟩ := fits b solves same
      obtain rfl : cand = found := Option.some.inj (matched.symm.trans e)
      exact part

include h plain in
/-- The firings of a trigger that are found for a fact are the solutions of its conditions that make
one of them this fact. -/
theorem exists_firingsWith_eq (regular : trigger.IsRegular) (hf : fact ∈ facts) :
    ∃ found, base.firingsWith t fact trigger = .ok found ∧ ∀ f, f ∈ found ↔ f.trigger = trigger ∧
      Solves (· ∈ facts) trigger.conditions f.bindings ∧
        ∃ c ∈ trigger.conditions, c.instantiate f.bindings = fact := by
  obtain ⟨lists, e, related⟩ := Sequence.exists_mapM_eq_ok (f := base.bindingsOfPick t fact)
    fun _ hp => exists_bindingsOfPick_eq h plain regular hf hp
  have solutions : ∀ b, b ∈ lists.flatten ↔ Solves (· ∈ facts) trigger.conditions b ∧
      ∃ c ∈ trigger.conditions, c.instantiate b = fact := by
    intro b
    rw [List.mem_flatten]
    constructor
    · rintro ⟨found, hl, hb⟩
      obtain ⟨⟨c, remaining⟩, hp, found_iff⟩ := Sequence.exists_of_mem_right related hl
      obtain ⟨solves, same⟩ := (found_iff b).mp hb
      exact ⟨solves, c, (Matcher.perm_of_mem_picks hp).mem_iff.mpr (by simp), same⟩
    · rintro ⟨solves, c, hc, same⟩
      obtain ⟨remaining, hp⟩ := Matcher.exists_mem_picks hc
      obtain ⟨found, hl, found_iff⟩ := Sequence.exists_of_mem_left related hp
      exact ⟨found, hl, (found_iff b).mpr ⟨solves, same⟩⟩
  have ground : lists.flatten.filter (·.isGround) = lists.flatten := by
    refine List.filter_eq_self.mpr fun b hb => isGround_of_allValues fun _ _ e => ?_
    exact (allValues_of_solves plain regular ((solutions b).mp hb).1 e).ground
  refine ⟨lists.flatten.map (⟨trigger, ·⟩), ?_, fun f => ?_⟩
  · rw [firingsWith]
    change (List.mapM (base.bindingsOfPick t fact) _ >>= _) = _
    rw [e, Sequence.ok_bind, ground]
    rfl
  · rw [List.mem_map]
    constructor
    · rintro ⟨b, hb, rfl⟩
      exact ⟨rfl, (solutions b).mp hb⟩
    · rintro ⟨rfl, solves⟩
      exact ⟨f.bindings, (solutions _).mpr solves, rfl⟩

include h plain in
/-- The firings that are found for a fact are those in which it fulfils a condition. -/
theorem exists_firingsOfFact_eq (regular : ∀ trigger ∈ active, trigger.IsRegular)
    (hf : fact ∈ facts) : ∃ found, base.firingsOfFact t active fact = .ok found ∧
      ∀ f, f ∈ found ↔ f.trigger ∈ active ∧ Solves (· ∈ facts) f.trigger.conditions f.bindings ∧
        ∃ c ∈ f.trigger.conditions, c.instantiate f.bindings = fact := by
  by_cases word : fact.isAtom = true
  · refine ⟨[], by rw [firingsOfFact, if_pos word]; rfl, fun f => ?_⟩
    simp only [List.not_mem_nil, false_iff]
    rintro ⟨ht, -, c, hc, rfl⟩
    obtain ⟨plain, compound, -⟩ := (regular _ ht).conditions c hc
    have := Concept.isCompound_instantiate (b := f.bindings) plain.clean compound
    simp [Concept.isCompound, word] at this
  · obtain ⟨lists, e, related⟩ := Sequence.exists_mapM_eq_ok (f := base.firingsWith t fact)
      fun trigger ht => exists_firingsWith_eq h plain (regular trigger ht) hf
    refine ⟨lists.flatten, by rw [firingsOfFact, if_neg word, e]; rfl, fun f => ?_⟩
    rw [List.mem_flatten]
    constructor
    · rintro ⟨found, hl, hm⟩
      obtain ⟨trigger, ht, found_iff⟩ := Sequence.exists_of_mem_right related hl
      obtain ⟨rfl, solves⟩ := (found_iff f).mp hm
      exact ⟨ht, solves⟩
    · rintro ⟨ht, solves⟩
      obtain ⟨found, hl, found_iff⟩ := Sequence.exists_of_mem_left related ht
      exact ⟨found, hl, (found_iff f).mpr ⟨rfl, solves⟩⟩

include h plain in
/-- The firings that are found for new facts are those in which one of them fulfils a condition,
each found once. -/
theorem exists_firings_eq (regular : ∀ trigger ∈ active, trigger.IsRegular)
    (names : (active.map (·.name.key)).Nodup) {new : List Concept} (hn : ∀ c ∈ new, c ∈ facts) :
    ∃ found, base.firings t active new [] = .ok found ∧ found.Nodup ∧
      ∀ f, f ∈ found ↔ f.trigger ∈ active ∧ Solves (· ∈ facts) f.trigger.conditions f.bindings ∧
        ∃ c ∈ f.trigger.conditions, c.instantiate f.bindings ∈ new := by
  obtain ⟨lists, e, related⟩ := Sequence.exists_mapM_eq_ok (f := base.firingsOfFact t active)
    fun c hc => exists_firingsOfFact_eq h plain regular (hn c hc)
  have raw : ∀ f, f ∈ lists.flatten ↔ f.trigger ∈ active ∧
      Solves (· ∈ facts) f.trigger.conditions f.bindings ∧
        ∃ c ∈ f.trigger.conditions, c.instantiate f.bindings ∈ new := by
    intro f
    rw [List.mem_flatten]
    constructor
    · rintro ⟨found, hl, hm⟩
      obtain ⟨fact, hf, found_iff⟩ := Sequence.exists_of_mem_right related hl
      obtain ⟨ht, solves, c, hc, rfl⟩ := (found_iff f).mp hm
      exact ⟨ht, solves, c, hc, hf⟩
    · rintro ⟨ht, solves, c, hc, hf⟩
      obtain ⟨found, hl, found_iff⟩ := Sequence.exists_of_mem_left related hf
      exact ⟨found, hl, (found_iff f).mpr ⟨ht, solves, c, hc, rfl⟩⟩
  have clean : ∀ f ∈ lists.flatten, f.trigger ∈ active ∧ f.bindings.AllValues Concept.Clean := by
    intro f hf
    obtain ⟨ht, solves, -⟩ := (raw f).mp hf
    exact ⟨ht, fun _ _ e => (allValues_of_solves plain (regular _ ht) solves e).clean⟩
  refine ⟨Sequence.distinctBy Firing.identity lists.flatten, ?_, ?_, fun f => ?_⟩
  · rw [firings, e, Sequence.ok_bind]
    change Except.ok (Sequence.distinctBy Firing.identity (lists.flatten ++ [])) = _
    rw [List.append_nil]
  · exact List.Nodup.of_map _ (Sequence.nodup_keys_distinctBy Firing.identity lists.flatten)
  · rw [← raw f]
    refine ⟨fun hf => (Sequence.distinctBy_sublist _ _).subset hf, fun hf => ?_⟩
    obtain ⟨g, hg, same⟩ := List.mem_map.mp
      (Sequence.mem_keys_distinctBy.mpr (List.mem_map_of_mem (f := Firing.identity) hf))
    have origin := (Sequence.distinctBy_sublist _ _).subset hg
    obtain rfl := Firing.eq_of_identity names (clean g origin).1 (clean f hf).1 (clean g origin).2
      (clean f hf).2 same
    exact hg

end Fact

end FactBase

/-! ## What firings cause -/

/-- A firing of a trigger that removes nothing has the instances of the templates for additions. -/
theorem Firing.changes_of_removals_eq_nil {f : Firing} (removals : f.trigger.removals = [])
    (free : ∀ a ∈ f.trigger.additions, a.IsSelfFree)
    (values : f.bindings.AllValues Concept.IsSelfFree) {changes : Changes}
    (ok : f.changes = .ok changes) : changes.removals = [] ∧ changes.additions =
      Concept.distinct (f.trigger.additions.map (Concept.instantiate f.bindings)) := by
  rw [Firing.changes, removals, FactBase.liftSource_substitute_eq free values,
    FactBase.liftSource_substitute_eq (by simp) values] at ok
  simp only [Sequence.ok_bind] at ok
  obtain ⟨receivers, -, ok⟩ := Sequence.exists_of_bind_eq_ok ok
  obtain rfl := Except.ok.inj ok
  exact ⟨rfl, rfl⟩

/-- Firings of triggers that remove nothing cause the instances of their templates to be added, and
nothing to be removed. -/
theorem Changes.mem_additions_ofFirings {fs : List Firing}
    (removals : ∀ f ∈ fs, f.trigger.removals = [])
    (free : ∀ f ∈ fs, ∀ a ∈ f.trigger.additions, a.IsSelfFree)
    (values : ∀ f ∈ fs, f.bindings.AllValues Concept.IsSelfFree)
    {changes : Changes} (ok : Changes.ofFirings fs = .ok changes) :
    changes.removals = [] ∧ ∀ c, c ∈ changes.additions ↔
      ∃ f ∈ fs, ∃ a ∈ f.trigger.additions, a.instantiate f.bindings = c := by
  obtain ⟨parts, e, ok⟩ := Sequence.exists_of_bind_eq_ok ok
  obtain rfl := Except.ok.inj ok
  have parts_iff : ∀ part ∈ parts, ∃ f ∈ fs, f.changes = .ok part := fun part hp =>
    Sequence.exists_of_mem_right (Sequence.forall₂_of_mapM_eq_ok e) hp
  have caused := fun f (hf : f ∈ fs) part (ok : f.changes = .ok part) =>
    Firing.changes_of_removals_eq_nil (removals f hf) (free f hf) (values f hf) ok
  have instances : ∀ f ∈ fs, ∀ c ∈ f.trigger.additions.map (Concept.instantiate f.bindings),
      c.Clean := by
    intro f hf c hc
    obtain ⟨a, ha, rfl⟩ := List.mem_map.mp hc
    exact ((free f hf a ha).instantiate (values f hf)).clean
  have clean : ∀ c ∈ parts.flatMap (·.additions), c.Clean := by
    intro c hc
    obtain ⟨part, hp, hc⟩ := List.mem_flatMap.mp hc
    obtain ⟨f, hf, ok⟩ := parts_iff part hp
    rw [(caused f hf part ok).2] at hc
    exact Concept.clean_of_mem_distinct (instances f hf) c hc
  constructor
  · have none : parts.flatMap (·.removals) = [] := by
      refine List.flatMap_eq_nil_iff.mpr fun part hp => ?_
      obtain ⟨f, hf, ok⟩ := parts_iff part hp
      exact (caused f hf part ok).1
    change Concept.distinct (parts.flatMap (·.removals)) = []
    rw [none]
    rfl
  · intro c
    change c ∈ Concept.distinct (parts.flatMap (·.additions)) ↔ _
    rw [Concept.mem_distinct clean, List.mem_flatMap]
    constructor
    · rintro ⟨part, hp, hc⟩
      obtain ⟨f, hf, ok⟩ := parts_iff part hp
      rw [(caused f hf part ok).2, Concept.mem_distinct (instances f hf)] at hc
      exact ⟨f, hf, List.mem_map.mp hc⟩
    · rintro ⟨f, hf, made⟩
      obtain ⟨part, hp, ok⟩ := Sequence.exists_of_mem_left (Sequence.forall₂_of_mapM_eq_ok e) hf
      refine ⟨part, hp, ?_⟩
      rw [(caused f hf part ok).2, Concept.mem_distinct (instances f hf)]
      exact List.mem_map.mpr made

end ConceptSpace
