import Mathlib.Data.List.Perm.Basic
import ConceptSpace.Pattern.Bindings
import ConceptSpace.Proofs.Concept.Words

/-!
# Instances

The *instance* of a concept under bindings has the bound variables replaced, and the members of
its sets put in order again. The instance of a clean concept is clean (`Clean.instantiate`), has the
words of the concept with those of the bound concepts put in (`Clean.words_instantiate`), depends on
nothing but what the variables of the concept are bound to (`instantiate_congr`), and can be made in
two steps (`Clean.instantiate_instantiate`).
-/

namespace ConceptSpace

namespace Bindings

/-- What the first bindings say, the second say, too. -/
def IsPartOf (b extended : Bindings) : Prop :=
  ∀ ⦃name : String⦄ ⦃value : Concept⦄, b[name]? = some value → extended[name]? = some value

/-- Every bound concept has a property. -/
def AllValues (P : Concept → Prop) (b : Bindings) : Prop :=
  ∀ ⦃name : String⦄ ⦃value : Concept⦄, b[name]? = some value → P value

theorem IsPartOf.refl (b : Bindings) : b.IsPartOf b :=
  fun _ _ h => h

theorem IsPartOf.trans {b c d : Bindings} (h : b.IsPartOf c) (h' : c.IsPartOf d) : b.IsPartOf d :=
  fun _ _ e => h' (h e)

theorem isPartOf_empty (b : Bindings) : IsPartOf ∅ b :=
  fun _ _ h => by simp at h

theorem allValues_empty (P : Concept → Prop) : AllValues P ∅ :=
  fun _ _ h => by simp at h

theorem IsPartOf.allValues {P : Concept → Prop} {b c : Bindings} (h : b.IsPartOf c)
    (hc : c.AllValues P) : b.AllValues P :=
  fun _ _ e => hc (h e)

/-- Bindings of the same variables, the ones part of the others, are the same. -/
theorem eq_of_isPartOf {b d : Bindings} (h : b.IsPartOf d)
    (names : ∀ name : String, d[name]? ≠ none → b[name]? ≠ none) : b = d := by
  ext1 name
  cases e : b[name]? with
  | some value => exact (h e).symm
  | none =>
    cases e' : d[name]? with
    | none => rfl
    | some value => exact absurd e (names name (by simp [e']))

end Bindings

namespace Concept

mutual

/-- A concept with bindings put in for its variables. Sets are put in order again. -/
def instantiate (b : Bindings) : Concept → Concept
  | .atom word => if startsWith '$' word then b[word]?.getD (.atom word) else .atom word
  | .compound parts => (ofParts? (instantiateAll b parts)).getD (.compound parts)

/-- Several concepts with bindings put in for their variables. -/
def instantiateAll (b : Bindings) : List Concept → List Concept
  | [] => []
  | part :: more => instantiate b part :: instantiateAll b more

end

variable {b : Bindings} {c : Concept} {ps : List Concept}

theorem instantiateAll_eq_map (b : Bindings) (cs : List Concept) :
    instantiateAll b cs = cs.map (instantiate b) := by
  induction cs with
  | nil => rfl
  | cons c cs ih => simp [instantiateAll, ih]

theorem instantiate_atom_of_not_variable {word : String} (h : startsWith '$' word = false) :
    (atom word).instantiate b = .atom word := by
  simp [instantiate, h]

theorem instantiate_atom_of_bound {word : String} {value : Concept}
    (h : startsWith '$' word = true) (bound : b[word]? = some value) :
    (atom word).instantiate b = value := by
  simp [instantiate, h, bound]

theorem instantiate_compound (b : Bindings) (ps : List Concept) :
    (compound ps).instantiate b =
      (ofParts? (ps.map (instantiate b))).getD (.compound ps) := by
  rw [instantiate, instantiateAll_eq_map]

/-- The instance of a clean compound has the instances of its parts, in some order. -/
theorem Clean.instantiate_compound_eq (h : Clean (.compound ps)) (b : Bindings) :
    ∃ placed, (compound ps).instantiate b = .compound placed ∧
      placed.Perm (ps.map (instantiate b)) ∧ IsArranged placed := by
  have two : 2 ≤ (ps.map (instantiate b)).length := by
    simpa using h.two_le_length
  obtain ⟨placed, made, perm, arranged⟩ := ofParts?_eq_compound _ two
  exact ⟨placed, by rw [instantiate_compound, made, Option.getD_some], perm, arranged⟩

/-- If the instances of the parts are arranged, they are the parts of the instance. -/
theorem Clean.instantiate_compound_of_isArranged (h : Clean (.compound ps))
    (arranged : IsArranged (ps.map (instantiate b))) :
    (compound ps).instantiate b = .compound (ps.map (instantiate b)) := by
  rw [instantiate_compound, ofParts?_of_isArranged (by simpa using h.two_le_length) arranged,
    Option.getD_some]

/-! ## Cleanness and words -/

theorem Clean.instantiate (h : c.Clean) (hb : b.AllValues Clean) : (c.instantiate b).Clean := by
  induction c with
  | atom word =>
    by_cases hv : startsWith '$' word = true
    · cases e : b[word]? with
      | none => simpa [Concept.instantiate, hv, e] using h
      | some value => rw [instantiate_atom_of_bound hv e]; exact hb e
    · rwa [instantiate_atom_of_not_variable (by simpa using hv)]
  | compound ps ih =>
    obtain ⟨placed, e, perm, arranged⟩ := h.instantiate_compound_eq b
    rw [e]
    refine clean_compound_iff.mpr ⟨?_, fun p hp => ?_, arranged⟩
    · simpa [perm.length_eq] using h.two_le_length
    · obtain ⟨q, hq, rfl⟩ := List.mem_map.mp (perm.mem_iff.mp hp)
      exact ih q hq (h.of_mem hq)

/-- The words of an instance are the words of the concept with those of the bound concepts put
in. -/
theorem Clean.words_instantiate (h : c.Clean) (b : Bindings) :
    (c.instantiate b).words.Perm
      (c.words.flatMap fun word => ((Concept.atom word).instantiate b).words) := by
  induction c with
  | atom word => simp
  | compound ps ih =>
    obtain ⟨placed, e, perm, -⟩ := h.instantiate_compound_eq b
    rw [e, words_compound, words_compound, List.flatMap_assoc]
    refine (perm.flatMap_right words).trans ?_
    rw [List.flatMap_map]
    exact List.Perm.flatMap_left ps fun p hp => ih p hp (h.of_mem hp)

theorem Clean.mem_words_instantiate (h : c.Clean) {word : String} :
    word ∈ (c.instantiate b).words ↔
      ∃ w ∈ c.words, word ∈ ((Concept.atom w).instantiate b).words := by
  rw [(h.words_instantiate b).mem_iff, List.mem_flatMap]

theorem Clean.not_mem_words_instantiate (h : c.Clean) {word : String} (hc : word ∉ c.words)
    (hb : b.AllValues (word ∉ ·.words)) : word ∉ (c.instantiate b).words := by
  intro hw
  obtain ⟨w, hw', hw⟩ := h.mem_words_instantiate.mp hw
  unfold Concept.instantiate at hw
  split at hw
  · cases e : b[w]? with
    | none =>
      obtain rfl : word = w := by simpa [e] using hw
      exact hc hw'
    | some value =>
      rw [e, Option.getD_some] at hw
      exact hb e hw
  · obtain rfl : word = w := by simpa using hw
    exact hc hw'

theorem Clean.mem_words_instantiate_of_not_variable (h : c.Clean) {word : String}
    (hw : word ∈ c.words) (hv : startsWith '$' word = false) : word ∈ (c.instantiate b).words :=
  h.mem_words_instantiate.mpr ⟨word, hw, by simp [instantiate_atom_of_not_variable hv]⟩

/-- The variables of an instance are those of what the variables of the concept become. -/
theorem Clean.vars_instantiate (h : c.Clean) (b : Bindings) :
    (c.instantiate b).vars.Perm
      (c.vars.flatMap fun name => ((Concept.atom name).instantiate b).vars) := by
  refine ((h.words_instantiate b).filter (startsWith '$')).trans ?_
  rw [List.filter_flatMap, vars, Sequence.flatMap_filter]
  · exact .refl _
  · intro word hv
    rw [instantiate_atom_of_not_variable hv]
    simp [vars_atom, hv]

theorem Clean.mem_vars_instantiate (h : c.Clean) {name : String} :
    name ∈ (c.instantiate b).vars ↔ ∃ n ∈ c.vars, name ∈ ((Concept.atom n).instantiate b).vars := by
  rw [(h.vars_instantiate b).mem_iff, List.mem_flatMap]

/-- If the variables of a concept are bound to ground concepts, those of the instance are the ones
that are not bound. -/
theorem Clean.mem_vars_instantiate_iff (h : c.Clean)
    (ground : ∀ name ∈ c.vars, ∀ value, b[name]? = some value → value.IsGround) {name : String} :
    name ∈ (c.instantiate b).vars ↔ name ∈ c.vars ∧ b[name]? = none := by
  rw [h.mem_vars_instantiate]
  constructor
  · rintro ⟨n, hn, hname⟩
    have isVariable := (List.mem_filter.mp hn).2
    cases e : b[n]? with
    | none =>
      obtain rfl : name = n := by
        simpa [Concept.instantiate, e, vars_atom, isVariable] using hname
      exact ⟨hn, e⟩
    | some value =>
      rw [instantiate_atom_of_bound isVariable e, ground n hn value e] at hname
      simp at hname
  · rintro ⟨hn, e⟩
    have isVariable := (List.mem_filter.mp hn).2
    exact ⟨name, hn, by simp [Concept.instantiate, e, vars_atom, isVariable]⟩

theorem Clean.isGround_instantiate (h : c.Clean) (hb : b.AllValues IsGround)
    (bound : ∀ name ∈ c.vars, b[name]? ≠ none) : (c.instantiate b).IsGround := by
  refine List.eq_nil_iff_forall_not_mem.mpr fun name hname => ?_
  obtain ⟨hc, e⟩ := (h.mem_vars_instantiate_iff fun _ _ _ e => hb e).mp hname
  exact bound name hc e

/-! ## Changing the bindings -/

theorem mem_vars_of_mem {p : Concept} (hp : p ∈ ps) {name : String} (h : name ∈ p.vars) :
    name ∈ (compound ps).vars := by
  rw [vars_compound, List.mem_flatMap]
  exact ⟨p, hp, h⟩

/-- An instance depends on what the variables of the concept are bound to, and on nothing else. -/
theorem instantiate_congr {b' : Bindings} (h : ∀ name ∈ c.vars, b[name]? = b'[name]?) :
    c.instantiate b = c.instantiate b' := by
  induction c with
  | atom word =>
    by_cases hv : startsWith '$' word = true
    · simp [instantiate, h word (by simp [vars_atom, hv])]
    · simp [instantiate, hv]
  | compound ps ih =>
    have same : ps.map (instantiate b) = ps.map (instantiate b') :=
      List.map_congr_left fun p hp => ih p hp fun name hn => h name (mem_vars_of_mem hp hn)
    rw [instantiate_compound, instantiate_compound, same]

/-- Bindings that say nothing about the variables of a clean concept leave it as it is. -/
theorem Clean.instantiate_eq_self (h : c.Clean) (none : ∀ name ∈ c.vars, b[name]? = none) :
    c.instantiate b = c := by
  induction c with
  | atom word =>
    by_cases hv : startsWith '$' word = true
    · simp [Concept.instantiate, none word (by simp [vars_atom, hv])]
    · simp [Concept.instantiate, hv]
  | compound ps ih =>
    have same : ps.map (Concept.instantiate b) = ps := by
      refine (List.map_congr_left fun p hp => ?_).trans (List.map_id ps)
      exact ih p hp (h.of_mem hp) fun name hn => none name (mem_vars_of_mem hp hn)
    rw [instantiate_compound, same, h.ofParts?_eq, Option.getD_some]

theorem Clean.instantiate_of_isGround (h : c.Clean) (ground : c.IsGround) (b : Bindings) :
    c.instantiate b = c :=
  h.instantiate_eq_self fun name hn => by rw [ground] at hn; simp at hn

/-! ## Sets -/

theorem Clean.exists_of_isSet (h : Clean (.compound ps)) (set : isSet (.compound ps) = true) :
    ∃ members, ps = .atom setMarker :: members := by
  cases ps with
  | nil => simp [isSet] at set
  | cons head members =>
    have hk : head.key = setMarker := by simpa [isSet] using set
    cases head with
    | atom word => exact ⟨members, by rw [← hk]; rfl⟩
    | compound qs => exact absurd hk (h.of_mem (by simp)).key_ne_setMarker

/-- A set does not depend on the order in which its members are given. -/
theorem node_setMarker_of_perm {members placed : List Concept} (clean : ∀ c ∈ placed, c.Clean)
    (arranged : IsArranged (.atom setMarker :: placed)) (perm : members.Perm placed) :
    node (.atom setMarker) members = .compound (.atom setMarker :: placed) := by
  obtain ⟨sorted, e, perm', arranged', -⟩ := node_eq_compound (.atom setMarker) members
  rw [e]
  have same : sorted = placed := by
    refine (perm'.trans perm).eq_of_pairwise (fun c d hc hd hcd hdc => ?_) (arranged' rfl)
      (arranged rfl)
    exact ((clean c ((perm'.trans perm).mem_iff.mp hc)).key_inj (clean d hd)).mp
      (key_eq_of_keyLe hcd hdc)
  rw [same]

theorem node_setMarker_congr {members others : List Concept} (clean : ∀ c ∈ others, c.Clean)
    (perm : members.Perm others) :
    node (.atom setMarker) members = node (.atom setMarker) others := by
  obtain ⟨sorted, e, perm', arranged, -⟩ := node_eq_compound (.atom setMarker) others
  rw [e]
  exact node_setMarker_of_perm (fun c hc => clean c (perm'.mem_iff.mp hc)) arranged
    (perm.trans perm'.symm)

/-! ## Binding in two steps -/

/-- The instance of a compound is made of the instances of its parts. -/
theorem Clean.instantiate_cons {head : Concept} {members : List Concept}
    (h : Clean (.compound (head :: members))) (b : Bindings) :
    (compound (head :: members)).instantiate b =
      node (head.instantiate b) (members.map (Concept.instantiate b)) := by
  rw [instantiate_compound]
  cases members with
  | nil => exact absurd h.two_le_length (by simp)
  | cons member members => rfl

/-- Binding in two steps is binding at once, if it is for the variables of the concept. -/
theorem Clean.instantiate_instantiate (h : c.Clean) {b' all : Bindings} (hb : b.AllValues Clean)
    (hall : all.AllValues Clean) (same : ∀ name ∈ c.vars,
      ((Concept.atom name).instantiate b).instantiate b' = (Concept.atom name).instantiate all) :
    (c.instantiate b).instantiate b' = c.instantiate all := by
  induction c with
  | atom word =>
    by_cases hv : startsWith '$' word = true
    · exact same word (by simp [vars_atom, hv])
    · have hv : startsWith '$' word = false := by simpa using hv
      simp [instantiate_atom_of_not_variable hv]
  | compound ps ih =>
    obtain ⟨head, members, rfl⟩ := List.exists_cons_of_ne_nil h.ne_nil
    have inner : ∀ p ∈ head :: members,
        (p.instantiate b).instantiate b' = p.instantiate all := fun p hp =>
      ih p hp (h.of_mem hp) fun name hn => same name (mem_vars_of_mem hp hn)
    have clean := h.instantiate hb
    rw [h.instantiate_cons all, ← inner head (by simp)]
    by_cases set : (head.instantiate b).key = setMarker
    · -- The first step has made a set, the members of which stand in another order.
      have marker : head.instantiate b = .atom setMarker :=
        ((h.of_mem (by simp)).instantiate hb).eq_setMarker_of_key set
      obtain ⟨sorted, e, perm, -⟩ :=
        node_eq_compound (.atom setMarker) (members.map (Concept.instantiate b))
      rw [h.instantiate_cons, marker, e] at clean ⊢
      rw [clean.instantiate_cons, instantiate_atom_of_not_variable (by decide)]
      refine node_setMarker_congr (fun d hd => ?_) ((perm.map _).trans ?_)
      · obtain ⟨p, hp, rfl⟩ := List.mem_map.mp hd
        exact (h.of_mem (by simp [hp])).instantiate hall
      · rw [List.map_map]
        exact .of_eq (List.map_congr_left fun p hp => inner p (by simp [hp]))
    · have arranged : IsArranged ((head :: members).map (Concept.instantiate b)) :=
        fun e => absurd e set
      rw [h.instantiate_compound_of_isArranged arranged] at clean ⊢
      rw [List.map_cons] at clean ⊢
      rw [clean.instantiate_cons, List.map_map]
      exact congrArg _ (List.map_congr_left fun p hp => inner p (by simp [hp]))

/-! ## Concepts without sets -/

/-- Without the set marker, the instance of a compound has the instances of its parts in their
order. -/
theorem Clean.instantiate_compound_of_no_set (h : Clean (.compound ps)) (hb : b.AllValues Clean)
    (none : setMarker ∉ (compound ps).words) (noneBound : b.AllValues (setMarker ∉ ·.words)) :
    (compound ps).instantiate b = .compound (ps.map (Concept.instantiate b)) := by
  refine h.instantiate_compound_of_isArranged ?_
  cases ps with
  | nil => trivial
  | cons head members =>
    have clean : head.Clean := h.of_mem (by simp)
    have noneHead : setMarker ∉ head.words := fun m => none (by simp [m])
    exact fun e => absurd e (key_head_ne_setMarker (clean.instantiate hb)
      (clean.not_mem_words_instantiate noneHead noneBound))

end Concept

end ConceptSpace
