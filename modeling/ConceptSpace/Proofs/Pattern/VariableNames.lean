import ConceptSpace.Proofs.Pattern.Places

/-!
# Names of variables

A mask says of the variables of its pattern where they stand, but neither what they are called nor
which of them are the same. Bindings of variables to variables keep the shape of a pattern, however
the members of its sets are ordered by the new names (`Clean.ofConcept_instantiate`), and the
pattern is its mask under such bindings (`Clean.exists_instantiate_mask_eq`). So two patterns have
the same mask just if they become the same when one variable is written over all of theirs
(`Clean.mask_forgets_names`).
-/

namespace ConceptSpace

namespace Concept

/-- A variable that is one token. -/
def IsCleanVariable (c : Concept) : Prop :=
  c.Clean ∧ c.isVariable = true

instance : DecidablePred IsCleanVariable :=
  fun c => inferInstanceAs (Decidable (c.Clean ∧ c.isVariable = true))

end Concept

open ConceptSpace.Concept (IsCleanVariable)

namespace Bindings

theorem AllValues.mono {P Q : Concept → Prop} {b : Bindings} (hb : b.AllValues P)
    (h : ∀ c, P c → Q c) : b.AllValues Q :=
  fun _ value e => h value (hb e)

/-- Bindings of variables to variables with other names. -/
def renames (rename : String → String) (names : List String) : Bindings :=
  names.foldr (fun name b => b.insert name (.atom (rename name))) ∅

variable {rename : String → String} {names : List String}

theorem getElem?_renames (rename : String → String) (names : List String) (name : String) :
    (renames rename names)[name]? =
      if name ∈ names then some (.atom (rename name)) else none := by
  induction names with
  | nil => simp [renames]
  | cons first names ih =>
    have step : renames rename (first :: names) =
        (renames rename names).insert first (.atom (rename first)) := rfl
    rw [step, Std.ExtTreeMap.getElem?_insert, ih]
    by_cases same : first = name
    · simp [same]
    · simp [same, Ne.symm same]

theorem allValues_renames (h : ∀ name ∈ names, IsCleanVariable (.atom (rename name))) :
    (renames rename names).AllValues IsCleanVariable := by
  intro name value e
  rw [getElem?_renames] at e
  split at e
  case isTrue hn => exact Option.some.inj e ▸ h name hn
  case isFalse => cases e

end Bindings

namespace Shape

/-- A compound has the shape of the parts that it was made of. -/
theorem ofConcept_node {head : Concept} {members : List Concept}
    (clean : ∀ c ∈ head :: members, c.Clean)
    (mentions : Concept.anyMentionsVariable (head :: members) = true) :
    ofConcept (Concept.node head members) =
      .nested (arrange ((head :: members).map ofConcept)) := by
  obtain ⟨placed, e, perm, -, same⟩ := Concept.node_eq_compound head members
  rw [← anyOpen_map_ofConcept, List.map_cons] at mentions
  rw [e, List.map_cons]
  refine ofConcept_compound_of_perm (fun s hs => ?_) (perm.map ofConcept) (fun noSet => ?_) mentions
  · obtain ⟨c, hc, rfl⟩ := List.mem_map.mp hs
    exact isCanonical_ofConcept (clean c (List.mem_cons_of_mem _ hc))
  · rw [same]
    intro marker
    obtain rfl := (clean head (by simp)).eq_setMarker_of_key marker
    exact absurd noSet (by decide)

end Shape

namespace Concept

variable {b : Bindings} {c p q : Concept} {name : String}

/-! ## Variables for variables -/

theorem exists_instantiate_atom_eq (hb : b.AllValues IsCleanVariable)
    (hv : startsWith '$' name = true) :
    ∃ other, startsWith '$' other = true ∧ (atom name).instantiate b = .atom other := by
  cases e : b[name]? with
  | none => exact ⟨name, hv, by simp [instantiate, e]⟩
  | some value =>
    obtain ⟨-, isVariable⟩ := hb e
    cases value with
    | atom other => exact ⟨other, isVariable, instantiate_atom_of_bound hv e⟩
    | compound => simp [Concept.isVariable] at isVariable

/-- Other variables in their places leave the shape of a pattern as it is. -/
theorem Clean.ofConcept_instantiate (h : c.Clean) (hb : b.AllValues IsCleanVariable) :
    Shape.ofConcept (c.instantiate b) = Shape.ofConcept c := by
  induction c with
  | atom word =>
    by_cases hv : startsWith '$' word = true
    · obtain ⟨other, isVariable, e⟩ := exists_instantiate_atom_eq hb hv
      rw [e, Shape.ofConcept, Shape.ofConcept, if_pos isVariable, if_pos hv]
    · rw [instantiate_atom_of_not_variable (by simpa using hv)]
  | compound ps ih =>
    by_cases mentions : anyMentionsVariable ps = true
    case neg =>
      have ground : IsGround (.compound ps) :=
        mentionsVariable_eq_false_iff.mp (by simpa [mentionsVariable] using mentions)
      rw [h.instantiate_of_isGround ground]
    case pos =>
      obtain ⟨head, members, rfl⟩ := List.exists_cons_of_ne_nil h.ne_nil
      have shapes : ((head :: members).map (Concept.instantiate b)).map Shape.ofConcept =
          (head :: members).map Shape.ofConcept := by
        rw [List.map_map]
        exact List.map_congr_left fun p hp => ih p hp (h.of_mem hp)
      have clean : ∀ d ∈ (head :: members).map (Concept.instantiate b), d.Clean := by
        intro d hd
        obtain ⟨p, hp, rfl⟩ := List.mem_map.mp hd
        exact (h.of_mem hp).instantiate (hb.mono fun _ h => h.1)
      have opened :
          anyMentionsVariable ((head :: members).map (Concept.instantiate b)) = true := by
        rw [← Shape.anyOpen_map_ofConcept, shapes, Shape.anyOpen_map_ofConcept, mentions]
      rw [List.map_cons] at shapes clean opened
      rw [h.instantiate_cons, Shape.ofConcept_node clean opened, shapes, Shape.ofConcept,
        if_pos mentions, Shape.ofConcepts_eq_map]

theorem Clean.mask_instantiate (h : c.Clean) (hb : b.AllValues IsCleanVariable) :
    (c.instantiate b).mask = c.mask := by
  rw [mask, mask, h.ofConcept_instantiate hb]

/-- A pattern is its mask with the variables in their places. -/
theorem Clean.exists_instantiate_mask_eq (h : p.Clean) :
    ∃ places : Bindings, places.AllValues IsCleanVariable ∧ p.mask.instantiate places = p := by
  obtain ⟨places, found⟩ :=
    Option.isSome_iff_exists.mp ((Covers.refl p).isSome_match?_mask h h)
  have fits := h.clean_mask.fits_of_match? h found
  refine ⟨places, fun number value e => ?_, fits.instantiates⟩
  obtain ⟨name, isVariable, e'⟩ := h.exists_place found number (fits.ne_none_iff.mp (by simp [e]))
  obtain rfl := Option.some.inj (e.symm.trans e')
  exact ⟨fits.clean e, isVariable⟩

/-! ## One variable for all -/

/-- A concept with other names for its variables. Sets are put in order again. -/
def renamed (rename : String → String) (c : Concept) : Concept :=
  c.instantiate (.renames rename c.vars)

/-- A concept with one variable written over all its variables. Sets are put in order again. -/
def overwritten (name : String) : Concept → Concept :=
  renamed fun _ => name

theorem allValues_overwriting (hn : IsCleanVariable (.atom name)) (c : Concept) :
    (Bindings.renames (fun _ => name) c.vars).AllValues IsCleanVariable :=
  Bindings.allValues_renames fun _ _ => hn

/-- Variables that are overwritten need not have been those of the pattern. -/
theorem Clean.overwritten_instantiate (h : c.Clean) (hb : b.AllValues IsCleanVariable)
    (hn : IsCleanVariable (.atom name)) :
    (c.instantiate b).overwritten name = c.overwritten name := by
  refine h.instantiate_instantiate (hb.mono fun _ h => h.1)
    ((allValues_overwriting hn c).mono fun _ h => h.1) fun v hv => ?_
  obtain ⟨other, isVariable, e⟩ := exists_instantiate_atom_eq hb (List.mem_filter.mp hv).2
  have among : other ∈ (c.instantiate b).vars :=
    h.mem_vars_instantiate.mpr ⟨v, hv, by simp [e, vars_atom, isVariable]⟩
  rw [e, instantiate_atom_of_bound isVariable
      (by rw [Bindings.getElem?_renames, if_pos among]),
    instantiate_atom_of_bound (List.mem_filter.mp hv).2
      (by rw [Bindings.getElem?_renames, if_pos hv])]

theorem Clean.clean_overwritten (h : c.Clean) (hn : IsCleanVariable (.atom name)) :
    (c.overwritten name).Clean :=
  h.instantiate ((allValues_overwriting hn c).mono fun _ h => h.1)

/-- Patterns have the same mask just if they become the same with one variable for all. -/
theorem Clean.mask_eq_mask_iff (hp : p.Clean) (hq : q.Clean) (hn : IsCleanVariable (.atom name)) :
    p.mask = q.mask ↔ p.overwritten name = q.overwritten name := by
  constructor
  · intro same
    obtain ⟨places, names, e⟩ := hp.exists_instantiate_mask_eq
    obtain ⟨others, names', e'⟩ := hq.exists_instantiate_mask_eq
    calc p.overwritten name
      _ = p.mask.overwritten name := by
        rw [← hp.clean_mask.overwritten_instantiate names hn, e]
      _ = q.mask.overwritten name := by rw [same]
      _ = q.overwritten name := by
        rw [← hq.clean_mask.overwritten_instantiate names' hn, e']
  · intro same
    calc p.mask
      _ = (p.overwritten name).mask := (hp.mask_instantiate (allValues_overwriting hn p)).symm
      _ = (q.overwritten name).mask := by rw [same]
      _ = q.mask := hq.mask_instantiate (allValues_overwriting hn q)

/-! ## Sets -/

theorem clean_node_setMarker {members : List Concept} (nonempty : members ≠ [])
    (clean : ∀ c ∈ members, c.Clean) : (node (.atom setMarker) members).Clean := by
  obtain ⟨member, more, rfl⟩ := List.exists_cons_of_ne_nil nonempty
  exact .ofParts (List.forall_mem_cons.mpr ⟨clean_setMarker, clean⟩) rfl

/-- The members of a set are overwritten one by one. -/
theorem overwritten_node {members : List Concept} (nonempty : members ≠ [])
    (clean : ∀ c ∈ members, c.Clean) (hn : IsCleanVariable (.atom name)) :
    (node (.atom setMarker) members).overwritten name =
      node (.atom setMarker) (members.map (overwritten name)) := by
  have set := clean_node_setMarker nonempty clean
  obtain ⟨placed, e, perm, -⟩ := node_eq_compound (.atom setMarker) members
  rw [e] at set ⊢
  rw [overwritten, renamed, set.instantiate_cons, instantiate_atom_of_not_variable (by decide)]
  have each : ∀ c ∈ placed, c.instantiate (.renames (fun _ => name)
      (compound (.atom setMarker :: placed)).vars) = c.overwritten name := by
    refine fun c hc => instantiate_congr fun v hv => ?_
    rw [Bindings.getElem?_renames, Bindings.getElem?_renames, if_pos hv,
      if_pos (mem_vars_of_mem (List.mem_cons_of_mem _ hc) hv)]
  rw [List.map_congr_left each]
  refine node_setMarker_congr (fun d hd => ?_) (perm.map _)
  obtain ⟨c, hc, rfl⟩ := List.mem_map.mp hd
  exact (clean c hc).clean_overwritten hn

/-- Sets whose members are the same but for order and variables have the same mask. -/
theorem mask_node_congr {members others : List Concept} (clean : ∀ c ∈ members ++ others, c.Clean)
    (hn : IsCleanVariable (.atom name))
    (perm : (members.map (overwritten name)).Perm (others.map (overwritten name))) :
    (node (.atom setMarker) members).mask = (node (.atom setMarker) others).mask := by
  obtain ⟨cleanMembers, cleanOthers⟩ := List.forall_mem_append.mp clean
  by_cases nonempty : members = []
  · obtain rfl : others = [] := by simpa [nonempty] using perm.length_eq.symm
    rw [nonempty]
  · have nonempty' : others ≠ [] := fun none => nonempty (by simpa [none] using perm.length_eq)
    rw [(clean_node_setMarker nonempty cleanMembers).mask_eq_mask_iff
      (clean_node_setMarker nonempty' cleanOthers) hn, overwritten_node nonempty cleanMembers hn,
      overwritten_node nonempty' cleanOthers hn]
    refine node_setMarker_congr (fun d hd => ?_) perm
    obtain ⟨c, hc, rfl⟩ := List.mem_map.mp hd
    exact (cleanOthers c hc).clean_overwritten hn

/-! ## Main statement -/

/-- Two patterns have the same mask just if they become the same when one variable is written over
all of theirs. So it depends neither on the names of the variables nor on which of them are the
same, nor on the order in which the members of sets are given; and a mask is its own mask. -/
theorem Clean.mask_forgets_names (hp : p.Clean) (hq : q.Clean) (hn : IsCleanVariable (.atom name)) :
    (p.mask = q.mask ↔ p.overwritten name = q.overwritten name) ∧
      p.mask.same q.mask = (p.overwritten name).same (q.overwritten name) ∧
      (∀ rename : String → String, (∀ v ∈ p.vars, IsCleanVariable (.atom (rename v))) →
        (p.renamed rename).mask = p.mask) ∧
      (∀ members others : List Concept, (∀ c ∈ members ++ others, c.Clean) →
        (members.map (overwritten name)).Perm (others.map (overwritten name)) →
          (node (.atom setMarker) members).mask = (node (.atom setMarker) others).mask) ∧
      p.mask.mask = p.mask := by
  refine ⟨hp.mask_eq_mask_iff hq hn, ?_, fun rename names => ?_,
    fun members others clean perm => mask_node_congr clean hn perm, ?_⟩
  · rw [Bool.eq_iff_iff, same, same, beq_iff_eq, beq_iff_eq,
      hp.clean_mask.key_inj hq.clean_mask,
      (hp.clean_overwritten hn).key_inj (hq.clean_overwritten hn), hp.mask_eq_mask_iff hq hn]
  · exact hp.mask_instantiate (Bindings.allValues_renames names)
  · exact (Shape.isCanonical_ofConcept hp).mask_toMask

/-- A set whose members are ordered by the names of their variables. -/
private def paired (first second : String) : Concept :=
  .compound [.atom ":", .compound [.atom "$a", .atom first], .compound [.atom "$b", .atom second]]

/-- Members that trade their variables change places, but not in the mask. -/
theorem paired_mask_eq : (paired "x" "y").Clean ∧ (paired "y" "x").Clean ∧
    paired "x" "y" ≠ paired "y" "x" ∧ (paired "x" "y").mask = (paired "y" "x").mask ∧
      ((paired "x" "y").renamed fun _ => "$c").mask = (paired "x" "y").mask := by
  have first : (paired "x" "y").Clean := by decide +kernel
  have second : (paired "y" "x").Clean := by decide +kernel
  have isName : ∀ name ∈ ["$c", "$"], IsCleanVariable (.atom name) := by decide +kernel
  obtain ⟨same_iff, -, names, -⟩ := first.mask_forgets_names second (isName "$" (by simp))
  exact ⟨first, second, by decide, same_iff.mpr (by decide +kernel),
    names _ fun _ _ => isName "$c" (by simp)⟩

end Concept

end ConceptSpace
