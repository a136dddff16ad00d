import ConceptSpace.Facts.Join
import ConceptSpace.Proofs.Concept.Inside
import ConceptSpace.Proofs.Pattern.PatternMask

/-!
# Solutions of queries

A *solution* of rules binds just their variables, so that every rule becomes a fact. A solution of
some rules and others is a solution of the first ones together with a solution of the others after
the first one has been put into them (`solves_filterMap_merge`); this is what a pivot relies on.
-/

namespace ConceptSpace

namespace Concept

/-! ## Plain concepts -/

/-- Clean concepts in which no word has a special meaning for the reading of sequences. -/
structure IsPlain (c : Concept) : Prop where
  /-- The concept is clean. -/
  clean : c.Clean
  /-- It holds no set. -/
  noSet : setMarker ∉ c.words
  /-- It does not refer to the head of a sequence. -/
  noSelf : selfReference ∉ c.words

/-- Plain concepts without variables. -/
structure IsPlainFact (c : Concept) : Prop extends IsPlain c where
  /-- The concept has no variables. -/
  ground : c.IsGround

/-- Plain concepts that a query can ask for: without variables, or compounds that do not fit
everything. -/
structure IsRule (c : Concept) : Prop extends IsPlain c where
  /-- What can be asked for. -/
  form : c.IsGround ∨ c.isCompound = true ∧ c.HasPlainWord

/-- Clean concepts that do not refer to the head of a sequence; they may hold sets. -/
structure IsSelfFree (c : Concept) : Prop where
  /-- The concept is clean. -/
  clean : c.Clean
  /-- It does not refer to the head of a sequence. -/
  noSelf : selfReference ∉ c.words

variable {c p : Concept} {ps : List Concept} {b : Bindings}

theorem IsPlain.isSelfFree (h : c.IsPlain) : c.IsSelfFree where
  clean := h.clean
  noSelf := h.noSelf

namespace IsSelfFree

theorem of_mem_parts (h : c.IsSelfFree) (hp : p ∈ c.parts) : p.IsSelfFree where
  clean := h.clean.of_mem_parts hp
  noSelf m := h.noSelf (mem_words_of_mem_parts hp m)

theorem of_mem_inside {a : Concept} (h : c.IsSelfFree) (ha : a ∈ c.inside) : a.IsSelfFree :=
  mem_of_mem_inside (fun _ hd _ hp => hd.of_mem_parts hp) h ha

theorem instantiate (h : p.IsSelfFree) (hb : b.AllValues IsSelfFree) :
    (p.instantiate b).IsSelfFree where
  clean := h.clean.instantiate fun _ _ e => (hb e).clean
  noSelf := h.clean.not_mem_words_instantiate h.noSelf fun _ _ e => (hb e).noSelf

end IsSelfFree

theorem IsPlain.of_mem_parts (h : c.IsPlain) (hp : p ∈ c.parts) : p.IsPlain where
  clean := h.clean.of_mem_parts hp
  noSet m := h.noSet (mem_words_of_mem_parts hp m)
  noSelf m := h.noSelf (mem_words_of_mem_parts hp m)

theorem IsPlainFact.of_mem_parts (h : c.IsPlainFact) (hp : p ∈ c.parts) : p.IsPlainFact where
  toIsPlain := h.toIsPlain.of_mem_parts hp
  ground := h.ground.of_mem_parts hp

theorem IsPlainFact.of_mem_inside {a : Concept} (h : c.IsPlainFact) (ha : a ∈ c.inside) :
    a.IsPlainFact :=
  mem_of_mem_inside (fun _ hd _ hp => hd.of_mem_parts hp) h ha

/-- What a variable of a concept is bound to stands inside the instance, or is it. -/
theorem Clean.mem_inside_instantiate (h : p.Clean) {name : String} (hn : name ∈ p.vars)
    {value : Concept} (e : b[name]? = some value) :
    value = p.instantiate b ∨ value ∈ (p.instantiate b).inside := by
  induction p with
  | atom word =>
    have hv : startsWith '$' name = true := (List.mem_filter.mp hn).2
    obtain rfl : name = word := by simpa using mem_words_of_mem_vars hn
    exact .inl (instantiate_atom_of_bound hv e).symm
  | compound ps ih =>
    rw [vars_compound, List.mem_flatMap] at hn
    obtain ⟨q, hq, hn⟩ := hn
    obtain ⟨placed, same, perm, -⟩ := h.instantiate_compound_eq b
    have part : q.instantiate b ∈ placed := perm.mem_iff.mpr (List.mem_map_of_mem hq)
    rw [same]
    exact .inr (mem_inside_iff.mpr ⟨_, part, ih q hq (h.of_mem hq) hn⟩)

namespace IsPlain

/-- The instance of a plain concept under plain bindings is plain. -/
theorem instantiate (h : p.IsPlain) (hb : b.AllValues IsPlain) : (p.instantiate b).IsPlain where
  clean := h.clean.instantiate fun _ _ e => (hb e).clean
  noSet := h.clean.not_mem_words_instantiate h.noSet fun _ _ e => (hb e).noSet
  noSelf := h.clean.not_mem_words_instantiate h.noSelf fun _ _ e => (hb e).noSelf

end IsPlain

theorem isCompound_instantiate (h : p.Clean) (hp : p.isCompound = true) :
    (p.instantiate b).isCompound = true := by
  cases p with
  | atom => simp [isCompound, isAtom] at hp
  | compound ps =>
    obtain ⟨placed, e, -⟩ := h.instantiate_compound_eq b
    rw [e]
    rfl

theorem IsRule.instantiate (h : p.IsRule) (hb : b.AllValues IsPlainFact) :
    (p.instantiate b).IsRule where
  toIsPlain := h.toIsPlain.instantiate fun _ _ e => (hb e).toIsPlain
  form := by
    rcases h.form with ground | ⟨compound, word, hw, hv⟩
    · rw [h.clean.instantiate_of_isGround ground]
      exact .inl ground
    · exact .inr ⟨isCompound_instantiate h.clean compound, word,
        h.clean.mem_words_instantiate_of_not_variable hw hv, hv⟩

/-- The rules that are looked up by their masks are those with variables. -/
theorem IsRule.isPattern_iff (h : p.IsRule) : p.isPattern = true ↔ ¬ p.IsGround := by
  rw [Concept.isPattern_iff]
  exact ⟨And.right, fun opened => ⟨(h.form.resolve_left opened).1, opened⟩⟩

end Concept

namespace FactBase

open ConceptSpace.Concept (IsPlainFact IsRule)

/-! ## Solutions -/

/-- Bindings of the variables of some rules under which every rule is a fact. -/
structure Solves (facts : Concept → Prop) (rules : List Concept) (b : Bindings) : Prop where
  /-- Just the variables of the rules are bound. -/
  binds : ∀ name : String, b[name]? ≠ none ↔ ∃ r ∈ rules, name ∈ r.vars
  /-- Every rule is a fact. -/
  holds : ∀ r ∈ rules, facts (r.instantiate b)

variable {facts : Concept → Prop} {rules rest : List Concept} {rule : Concept} {b : Bindings}

/-- What a solution binds stands inside facts, and is of their kind. -/
theorem Solves.allValues_of_closed {kind : Concept → Prop} (kinds : ∀ c, facts c → kind c)
    (closed : ∀ c, kind c → ∀ p ∈ c.parts, kind p) (clean : ∀ r ∈ rules, r.Clean)
    (h : Solves facts rules b) : b.AllValues kind := by
  intro name value e
  obtain ⟨r, hr, hn⟩ := (h.binds name).mp (Option.ne_none_iff_exists'.mpr ⟨value, e⟩)
  have fact := kinds _ (h.holds r hr)
  rcases (clean r hr).mem_inside_instantiate hn e with rfl | inside
  · exact fact
  · exact Concept.mem_of_mem_inside closed fact inside

/-- What a solution binds over plain facts is plain. -/
theorem Solves.allValues (kinds : ∀ c, facts c → IsPlainFact c) (clean : ∀ r ∈ rules, r.Clean)
    (h : Solves facts rules b) : b.AllValues IsPlainFact :=
  h.allValues_of_closed kinds (fun _ hc _ hp => hc.of_mem_parts hp) clean

theorem solves_nil_iff : Solves facts [] b ↔ b = ∅ := by
  constructor
  · intro h
    ext1 name
    rw [Std.ExtTreeMap.getElem?_empty]
    exact Classical.not_not.mp fun bound => by simpa using (h.binds name).mp bound
  · rintro rfl
    exact ⟨by simp, by simp⟩

/-- Only the members of a list of rules matter. -/
theorem solves_congr {other : List Concept} (same : ∀ r, r ∈ rules ↔ r ∈ other) :
    Solves facts rules b ↔ Solves facts other b := by
  have names : ∀ name : String, (∃ r ∈ rules, name ∈ r.vars) ↔ ∃ r ∈ other, name ∈ r.vars :=
    fun name => by simp only [same]
  constructor
  · exact fun h => ⟨fun name => (h.binds name).trans (names name),
      fun r hr => h.holds r ((same r).mpr hr)⟩
  · exact fun h => ⟨fun name => (h.binds name).trans (names name).symm,
      fun r hr => h.holds r ((same r).mp hr)⟩

/-- Rules without variables have to be facts; the others say what is bound. -/
theorem solves_append_ground {ground : List Concept} (clean : ∀ r ∈ ground, r.Clean)
    (isGround : ∀ r ∈ ground, r.IsGround) :
    Solves facts (rules ++ ground) b ↔ (∀ r ∈ ground, facts r) ∧ Solves facts rules b := by
  have same : ∀ r ∈ ground, r.instantiate b = r := fun r hr =>
    (clean r hr).instantiate_of_isGround (isGround r hr) b
  have names : ∀ name : String, (∃ r ∈ rules ++ ground, name ∈ r.vars) ↔
      ∃ r ∈ rules, name ∈ r.vars := by
    intro name
    constructor
    · rintro ⟨r, hr, hn⟩
      rcases List.mem_append.mp hr with hr | hr
      · exact ⟨r, hr, hn⟩
      · rw [isGround r hr] at hn
        simp at hn
    · rintro ⟨r, hr, hn⟩
      exact ⟨r, List.mem_append_left _ hr, hn⟩
  constructor
  · intro h
    refine ⟨fun r hr => ?_, fun name => (h.binds name).trans (names name), fun r hr => ?_⟩
    · rw [← same r hr]
      exact h.holds r (List.mem_append_right _ hr)
    · exact h.holds r (List.mem_append_left _ hr)
  · rintro ⟨stored, h⟩
    refine ⟨fun name => (h.binds name).trans (names name).symm, fun r hr => ?_⟩
    rcases List.mem_append.mp hr with hr | hr
    · exact h.holds r hr
    · rw [same r hr]
      exact stored r hr

/-! ## Merging -/

/-- Merged bindings have both as parts, and bind nothing else. -/
theorem isPartOf_of_merge? {extra all : Bindings} (hb : b.AllValues Concept.Clean)
    (clean : extra.AllValues Concept.Clean) (h : b.merge? extra = some all) :
    b.IsPartOf all ∧ extra.IsPartOf all ∧
      ∀ name : String, all[name]? ≠ none ↔ b[name]? ≠ none ∨ extra[name]? ≠ none := by
  obtain ⟨extended, bound⟩ := Bindings.extends_of_bindAll (fun pair hp =>
    clean (Std.ExtTreeMap.mem_toList_iff_getElem?_eq_some.mp hp)) hb h
  refine ⟨extended.keeps, fun name value e => ?_, fun name => ?_⟩
  · exact bound (name, value) (Std.ExtTreeMap.mem_toList_iff_getElem?_eq_some.mpr e)
  · rw [extended.binds, Std.ExtTreeMap.map_fst_toList_eq_keys, Std.ExtTreeMap.mem_keys,
      Std.ExtTreeMap.mem_iff_isSome_getElem?, Option.isSome_iff_ne_none]

/-- Bindings of different variables can be merged. -/
theorem exists_merge? {extra : Bindings}
    (disjoint : ∀ name : String, extra[name]? ≠ none → b[name]? = none) :
    ∃ all, b.merge? extra = some all := by
  have lookup : ∀ name : String, (b ∪ extra)[name]? = extra[name]?.or b[name]? := fun name =>
    Std.ExtTreeMap.getElem?_union
  have part : b.IsPartOf (b ∪ extra) := by
    intro name value e
    have : extra[name]? = none := Classical.not_not.mp fun ne => by simp [disjoint name ne] at e
    rw [lookup, this, Option.none_or, e]
  have pairs : ∀ pair ∈ extra.toList, (b ∪ extra)[pair.1]? = some pair.2 := by
    rintro ⟨name, value⟩ hp
    have e : extra[name]? = some value := Std.ExtTreeMap.mem_toList_iff_getElem?_eq_some.mp hp
    rw [lookup, e, Option.some_or]
  obtain ⟨all, merged, -⟩ := Bindings.exists_bindAll part pairs
  exact ⟨all, merged⟩

theorem eq_some_or_of_ne_none_iff {extra all : Bindings} (hb : b.IsPartOf all)
    (he : extra.IsPartOf all)
    (names : ∀ name : String, all[name]? ≠ none ↔ b[name]? ≠ none ∨ extra[name]? ≠ none)
    {name : String} {value : Concept} (e : all[name]? = some value) :
    b[name]? = some value ∨ extra[name]? = some value := by
  rcases (names name).mp (Option.ne_none_iff_exists'.mpr ⟨value, e⟩) with hn | hn
  · obtain ⟨v, ev⟩ := Option.ne_none_iff_exists'.mp hn
    exact .inl (ev.trans ((hb ev).symm.trans e))
  · obtain ⟨v, ev⟩ := Option.ne_none_iff_exists'.mp hn
    exact .inr (ev.trans ((he ev).symm.trans e))

/-- What is not bound by the first of two merged bindings is bound as by the other. -/
theorem getElem?_eq_of_free {extra all : Bindings} (he : extra.IsPartOf all)
    (names : ∀ name : String, all[name]? ≠ none ↔ b[name]? ≠ none ∨ extra[name]? ≠ none)
    {name : String} (free : b[name]? = none) : extra[name]? = all[name]? := by
  cases e : extra[name]? with
  | some value => exact (he e).symm
  | none =>
    have : ¬ all[name]? ≠ none := by simp [names, free, e]
    exact (Classical.not_not.mp this).symm

/-- Bindings without those of some variables. -/
def without (all b : Bindings) : Bindings :=
  all.filter fun name _ => !b.contains name

theorem getElem?_without (all b : Bindings) (name : String) :
    (without all b)[name]? = if b[name]? = none then all[name]? else none := by
  rw [without, Std.ExtTreeMap.getElem?_filter', Std.ExtTreeMap.contains_eq_isSome_getElem?]
  cases b[name]? <;> cases all[name]? <;> rfl

theorem without_isPartOf (all b : Bindings) : (without all b).IsPartOf all := by
  intro name value e
  rw [getElem?_without] at e
  split at e
  · exact e
  · simp at e

section Parts

variable {first : List Concept} {cand : Bindings}

section Rest

variable (bound : ∀ name : String, cand[name]? ≠ none ↔ ∃ r ∈ first, name ∈ r.vars)
  (clean : ∀ r ∈ rest, r.Clean)
  (shared : ∀ r ∈ rest, ∀ name ∈ r.vars, ∀ value, cand[name]? = some value → value.IsGround)

include clean shared in
/-- What the other rules still leave open after bindings have been put into them. -/
theorem mem_vars_rest (name : String) :
    (∃ r ∈ rest.map (Concept.instantiate cand), name ∈ r.vars) ↔
      cand[name]? = none ∧ ∃ r ∈ rest, name ∈ r.vars := by
  constructor
  · rintro ⟨_, hr, hn⟩
    obtain ⟨r, member, rfl⟩ := List.mem_map.mp hr
    obtain ⟨hn, free⟩ := ((clean r member).mem_vars_instantiate_iff (shared r member)).mp hn
    exact ⟨free, r, member, hn⟩
  · rintro ⟨free, r, hr, hn⟩
    exact ⟨_, List.mem_map_of_mem hr,
      ((clean r hr).mem_vars_instantiate_iff (shared r hr)).mpr ⟨hn, free⟩⟩

include shared in
/-- A variable gets the same in two steps as at once, if it is not bound to variables. -/
theorem instantiate_variable {all extra : Bindings} (cleanAll : all.AllValues Concept.Clean)
    (hca : cand.IsPartOf all)
    (others : ∀ name : String, cand[name]? = none → extra[name]? = all[name]?) {r : Concept}
    (hr : r ∈ rest) : ∀ name ∈ r.vars,
      ((Concept.atom name).instantiate cand).instantiate extra =
        (Concept.atom name).instantiate all := by
  intro name hn
  have isVariable := (List.mem_filter.mp hn).2
  cases e : cand[name]? with
  | none => simp [Concept.instantiate, e, others name e]
  | some value =>
    rw [Concept.instantiate_atom_of_bound isVariable e,
      Concept.instantiate_atom_of_bound isVariable (hca e)]
    exact (cleanAll (hca e)).instantiate_of_isGround (shared r hr name hn value e) extra

include clean shared in
/-- Putting a solution into a rule in two steps is putting it in at once. -/
theorem instantiate_rest {all extra : Bindings} (cleanAll : all.AllValues Concept.Clean)
    (hca : cand.IsPartOf all)
    (others : ∀ name : String, cand[name]? = none → extra[name]? = all[name]?) {r : Concept}
    (hr : r ∈ rest) : (r.instantiate cand).instantiate extra = r.instantiate all :=
  (clean r hr).instantiate_instantiate (hca.allValues cleanAll) cleanAll
    (instantiate_variable shared cleanAll hca others hr)

include clean shared in
/-- A solution of the first rules, merged with one of the other rules after it has been put into
them, is a solution of all of them. -/
theorem solves_of_rest {all extra : Bindings} (h : Solves facts first cand)
    (completed : Solves facts (rest.map (Concept.instantiate cand)) extra)
    (cleanAll : all.AllValues Concept.Clean) (hca : cand.IsPartOf all) (hea : extra.IsPartOf all)
    (names : ∀ name : String, all[name]? ≠ none ↔ cand[name]? ≠ none ∨ extra[name]? ≠ none) :
    Solves facts (first ++ rest) all := by
  refine ⟨fun name => ?_, fun r hr => ?_⟩
  · rw [names, h.binds, completed.binds, mem_vars_rest clean shared]
    constructor
    · rintro (⟨r, hr, hn⟩ | ⟨-, r, hr, hn⟩)
      · exact ⟨r, List.mem_append_left _ hr, hn⟩
      · exact ⟨r, List.mem_append_right _ hr, hn⟩
    · rintro ⟨r, hr, hn⟩
      by_cases own : ∃ q ∈ first, name ∈ q.vars
      · exact .inl own
      · rcases List.mem_append.mp hr with hr | hr
        · exact absurd ⟨r, hr, hn⟩ own
        · exact .inr ⟨Classical.not_not.mp fun ne => own ((h.binds name).mp ne), r, hr, hn⟩
  · rcases List.mem_append.mp hr with hr | hr
    · have same : r.instantiate cand = r.instantiate all :=
        Concept.instantiate_congr fun name hn => by
          obtain ⟨value, e⟩ := Option.ne_none_iff_exists'.mp ((h.binds name).mpr ⟨r, hr, hn⟩)
          rw [e, hca e]
      exact same ▸ h.holds r hr
    · rw [← instantiate_rest clean shared cleanAll hca
        (fun name => getElem?_eq_of_free hea names) hr]
      exact completed.holds _ (List.mem_map_of_mem hr)

include bound clean shared in
/-- Every solution of all rules that extends bindings of the first ones is found in this way. -/
theorem merge?_without_of_solves {all : Bindings} (cleanAll : all.AllValues Concept.Clean)
    (h : Solves facts (first ++ rest) all) (hca : cand.IsPartOf all) :
    Solves facts (rest.map (Concept.instantiate cand)) (without all cand) ∧
      cand.merge? (without all cand) = some all := by
  have part := without_isPartOf all cand
  have others : ∀ name : String, cand[name]? = none → (without all cand)[name]? = all[name]? :=
    fun name free => by rw [getElem?_without, if_pos free]
  have left : ∀ name : String, (without all cand)[name]? ≠ none ↔
      cand[name]? = none ∧ all[name]? ≠ none := by
    intro name
    rw [getElem?_without]
    split
    case isTrue free => simp [free]
    case isFalse taken => simp [taken]
  refine ⟨⟨fun name => ?_, fun r hr => ?_⟩, ?_⟩
  · rw [left, h.binds, mem_vars_rest clean shared]
    refine and_congr_right fun free => ?_
    constructor
    · rintro ⟨r, hr, hn⟩
      rcases List.mem_append.mp hr with hr | hr
      · exact absurd free ((bound name).mpr ⟨r, hr, hn⟩)
      · exact ⟨r, hr, hn⟩
    · rintro ⟨r, hr, hn⟩
      exact ⟨r, List.mem_append_right _ hr, hn⟩
  · obtain ⟨r, member, rfl⟩ := List.mem_map.mp hr
    rw [instantiate_rest clean shared cleanAll hca others member]
    exact h.holds r (List.mem_append_right _ member)
  · obtain ⟨merged, found⟩ := exists_merge? (b := cand) fun name hn => ((left name).mp hn).1
    obtain ⟨hc', he', names⟩ :=
      isPartOf_of_merge? (hca.allValues cleanAll) (part.allValues cleanAll) found
    rw [found]
    refine congrArg some (Bindings.eq_of_isPartOf ?_ fun name hn => ?_)
    · intro name value e
      rcases eq_some_or_of_ne_none_iff hc' he' names e with e | e
      · exact hca e
      · exact part e
    · by_cases free : cand[name]? = none
      · exact (names name).mpr (.inr ((left name).mpr ⟨free, hn⟩))
      · exact (names name).mpr (.inl free)

end Rest

variable (kinds : ∀ c, facts c → IsPlainFact c) (isRule : ∀ r ∈ first ++ rest, IsRule r)
  (h : Solves facts first cand)

include kinds isRule h in
theorem allValues_of_solves_first : cand.AllValues IsPlainFact :=
  h.allValues kinds fun r hr => (isRule r (List.mem_append_left _ hr)).clean

include kinds isRule h in
theorem clean_and_shared_of_plain : (∀ r ∈ rest, r.Clean) ∧
    ∀ r ∈ rest, ∀ name ∈ r.vars, ∀ value, cand[name]? = some value → value.IsGround :=
  ⟨fun r hr => (isRule r (List.mem_append_right _ hr)).clean, fun _ _ _ _ _ e =>
    (allValues_of_solves_first kinds isRule h e).ground⟩

include kinds isRule h in
/-- The other rules are rules, after a solution of the first ones has been put into them. -/
theorem isRule_of_mem_rest : ∀ r ∈ rest.map (Concept.instantiate cand), IsRule r := by
  intro _ hr
  obtain ⟨r, member, rfl⟩ := List.mem_map.mp hr
  exact (isRule r (List.mem_append_right _ member)).instantiate
    (allValues_of_solves_first kinds isRule h)

include kinds isRule h in
/-- A solution of the other rules, after a solution of the first ones has been put into them, makes
a solution of all of them. -/
theorem exists_solution_of_rest {extra : Bindings}
    (completed : Solves facts (rest.map (Concept.instantiate cand)) extra) :
    ∃ all, cand.merge? extra = some all ∧ cand.IsPartOf all ∧ Solves facts (first ++ rest) all ∧
      without all cand = extra := by
  have plain := allValues_of_solves_first kinds isRule h
  obtain ⟨clean, shared⟩ := clean_and_shared_of_plain kinds isRule h
  have plainExtra : extra.AllValues IsPlainFact :=
    completed.allValues kinds fun r hr => (isRule_of_mem_rest kinds isRule h r hr).clean
  have disjoint : ∀ name : String, extra[name]? ≠ none → cand[name]? = none := fun name hn =>
    ((mem_vars_rest clean shared name).mp ((completed.binds name).mp hn)).1
  obtain ⟨all, merged⟩ := exists_merge? disjoint
  obtain ⟨hca, hea, names⟩ := isPartOf_of_merge? (fun _ _ e => (plain e).clean)
    (fun _ _ e => (plainExtra e).clean) merged
  have cleanAll : all.AllValues Concept.Clean := by
    intro name value e
    rcases eq_some_or_of_ne_none_iff hca hea names e with e | e
    · exact (plain e).clean
    · exact (plainExtra e).clean
  refine ⟨all, merged, hca, solves_of_rest clean shared h completed cleanAll hca hea names, ?_⟩
  ext1 name
  rw [getElem?_without]
  split
  case isTrue free => exact (getElem?_eq_of_free hea names free).symm
  case isFalse taken =>
    exact (Classical.not_not.mp fun ne => taken (disjoint name ne)).symm

include kinds isRule h in
/-- Solutions of the other rules, put together with a solution of the first ones, are the solutions
of all rules that extend it, without repetition. -/
theorem solves_filterMap_merge {completions : List Bindings} (nodup : completions.Nodup)
    (completed : ∀ extra, extra ∈ completions ↔
      Solves facts (rest.map (Concept.instantiate cand)) extra) :
    (completions.filterMap cand.merge?).Nodup ∧
      ∀ b, b ∈ completions.filterMap cand.merge? ↔ Solves facts (first ++ rest) b ∧
        cand.IsPartOf b := by
  have found := fun extra (he : extra ∈ completions) =>
    exists_solution_of_rest kinds isRule h ((completed extra).mp he)
  constructor
  · have merged : completions.filterMap cand.merge? =
        completions.map fun extra => (cand.merge? extra).getD ∅ := by
      rw [← List.filterMap_eq_map]
      refine List.filterMap_congr fun extra he => ?_
      obtain ⟨all, e, -⟩ := found extra he
      simp [e]
    rw [merged]
    refine List.Nodup.map_on (fun extra he other ho same => ?_) nodup
    obtain ⟨all, e, -, -, back⟩ := found extra he
    obtain ⟨all', e', -, -, back'⟩ := found other ho
    obtain rfl : all = all' := by simpa [e, e'] using same
    exact back.symm.trans back'
  · intro b
    rw [List.mem_filterMap]
    constructor
    · rintro ⟨extra, he, e⟩
      obtain ⟨all, e', part, solves, -⟩ := found extra he
      obtain rfl : all = b := Option.some.inj (e'.symm.trans e)
      exact ⟨solves, part⟩
    · rintro ⟨solves, part⟩
      obtain ⟨clean, shared⟩ := clean_and_shared_of_plain kinds isRule h
      obtain ⟨rest, e⟩ := merge?_without_of_solves h.binds clean shared (fun _ _ e =>
        (solves.allValues kinds (fun r hr => (isRule r hr).clean) e).clean) solves part
      exact ⟨_, (completed _).mpr rest, e⟩

end Parts

/-- The solutions of one rule that extend one of them are this one. -/
theorem solves_singleton_iff {cand : Bindings} (hc : Bindings.Extends rule.vars ∅ cand)
    (fact : facts (rule.instantiate cand)) {b : Bindings} :
    b = cand ↔ Solves facts [rule] b ∧ cand.IsPartOf b := by
  have bound : ∀ name : String, cand[name]? ≠ none ↔ name ∈ rule.vars := fun _ => hc.ne_none_iff
  constructor
  · rintro rfl
    exact ⟨⟨fun name => by simp [bound], by simpa using fact⟩, .refl b⟩
  · rintro ⟨solves, part⟩
    refine (Bindings.eq_of_isPartOf part fun name hn => ?_).symm
    exact (bound name).mpr (by simpa using (solves.binds name).mp hn)

end FactBase

end ConceptSpace
