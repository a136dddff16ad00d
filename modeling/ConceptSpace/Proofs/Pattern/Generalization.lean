import ConceptSpace.Proofs.Concept.Inside
import ConceptSpace.Proofs.Pattern.Covering
import ConceptSpace.Proofs.Pattern.Mask

/-!
# The masks of a concept are those of the patterns that fit it

Masks are made in two ways: from the generalizations of a concept that is stored, and from a pattern
that is looked up. The two meet: a concept has just the masks of the patterns that can be fitted to
it, each of them once (`Clean.masks_spec`). From the pattern to the generalization, the parts of the
concept are treated as the parts of the pattern that cover them (`Covers.treatedAs`); the other
way round, a mask is its own mask.
-/

namespace ConceptSpace.Concept

variable {p c m : Concept} {ps cs : List Concept}

/-! ## From patterns to masks -/

theorem eq_setMarker_of_isSetMarker (hp : p.Clean) (h : (Shape.ofConcept p).isSetMarker = true) :
    p = .atom setMarker := by
  have kept : Shape.ofConcept p = .fixed p := by
    cases p with
    | atom word =>
      unfold Shape.ofConcept at h ⊢
      split at h
      · simp [Shape.isSetMarker] at h
      case isFalse hv => exact if_neg hv
    | compound ps =>
      unfold Shape.ofConcept at h ⊢
      split at h
      · simp [Shape.isSetMarker] at h
      case isFalse hv => exact if_neg hv
  have key : p.key = setMarker := by simpa [kept, Shape.isSetMarker] using h
  cases p with
  | atom word => exact congrArg atom key
  | compound ps => exact absurd key hp.key_ne_setMarker

/-- The shape of a compound with variables has the shapes of the members, those of a set in
order. -/
theorem exists_ofConcept_eq {head : Concept} {members : List Concept}
    (opened : ¬ IsGround (.compound (head :: members))) :
    ∃ shapes : List Shape, Shape.ofConcept (.compound (head :: members)) =
        .nested (Shape.ofConcept head :: shapes) ∧
      shapes.Perm (members.map Shape.ofConcept) ∧
      ((Shape.ofConcept head).isSetMarker = false → shapes = members.map Shape.ofConcept) := by
  have mentions : anyMentionsVariable (head :: members) = true := mentionsVariable_iff.mpr opened
  refine ⟨_, by rw [Shape.ofConcept, if_pos mentions, Shape.ofConcepts_eq_map]; rfl, ?_, ?_⟩
  · split
    · exact Sequence.sortBy_perm _ _
    · exact .refl _
  · intro noSet
    rw [if_neg (by simp [noSet])]

def CoveredBy (ps : List Concept) (s : Shape) (c : Concept) : Prop :=
  ∃ p ∈ ps, Shape.ofConcept p = s ∧ Covers p c

theorem forall₂_coveredBy {qs : List Concept} (among : ∀ p ∈ ps, p ∈ qs)
    (h : List.Forall₂ Covers ps cs) :
    List.Forall₂ (CoveredBy qs) (ps.map Shape.ofConcept) cs := by
  rw [List.forall₂_map_left_iff]
  exact Sequence.forall₂_imp_of_mem (fun p hp _ _ covers => ⟨p, among p hp, rfl, covers⟩) h

/-- Numbering the variables of a pattern apart does not take away what it covers. -/
theorem Covers.number (h : Covers p c) (hp : p.Clean) (first : Nat) :
    Covers ((Shape.ofConcept p).number first).1 c := by
  induction p generalizing c first with
  | atom word =>
    by_cases hv : startsWith '$' word = true
    · have e : ((Shape.ofConcept (.atom word)).number first).1 =
          .atom (Shape.numberedName first) := by simp [Shape.ofConcept, hv]; rfl
      rw [e]
      exact .anything (Shape.startsWith_numberedName first) c
    · have e : ((Shape.ofConcept (.atom word)).number first).1 = .atom word := by
        simp [Shape.ofConcept, hv, Shape.number]
      rwa [e]
  | compound ps ih =>
    by_cases ground : IsGround (.compound ps)
    · have mentions : anyMentionsVariable ps = false := mentionsVariable_eq_false_iff.mpr ground
      have e : ((Shape.ofConcept (.compound ps)).number first).1 = .compound ps := by
        simp [Shape.ofConcept, mentions, Shape.number]
      rwa [e]
    · obtain ⟨head, members, rfl⟩ := List.exists_cons_of_ne_nil hp.ne_nil
      obtain ⟨shapes, shape, order, inOrder⟩ := exists_ofConcept_eq ground
      have canonical := Shape.isCanonical_ofConcept hp
      rw [shape] at canonical ⊢
      cases canonical with
      | nested two parts _ _ =>
        -- Each part that is numbered covers what the part covers that it comes from.
        have numbered : ∀ s ∈ Shape.ofConcept head :: shapes, ∀ k,
            (∀ d, CoveredBy (head :: members) s d → Covers (s.number k).1 d) ∧
              ((s.number k).1.key = setMarker ↔ s.isSetMarker = true) := by
          intro s hs k
          refine ⟨?_, (parts s hs).key_number_iff k⟩
          rintro d ⟨p, hm, rfl, covers⟩
          exact ih p hm covers (hp.of_mem hm) k
        obtain ⟨_, _, q, qs, placed, split, hq, hqs, e, perm, same⟩ := Shape.exists_number_nested
          (R := fun s q => (∀ d, CoveredBy (head :: members) s d → Covers q d) ∧
            (q.key = setMarker ↔ s.isSetMarker = true)) two numbered first
        obtain ⟨rfl, rfl⟩ := List.cons.inj split
        obtain ⟨coversHead, marker⟩ := hq
        have renumbered : ∀ {ds : List Concept},
            List.Forall₂ (CoveredBy (head :: members)) shapes ds → List.Forall₂ Covers qs ds := by
          intro ds covered
          refine (Sequence.forall₂_through hqs covered).imp fun q d through => ?_
          obtain ⟨_, _, covers, part⟩ := through
          exact covers.1 d part
        have inside : ∀ p ∈ members, p ∈ head :: members := fun p hm => List.mem_cons_of_mem head hm
        rw [e]
        refine h.of_parts (fun d covers => coversHead d ⟨head, by simp, rfl, covers⟩)
          (fun isMarker => marker.mpr (by rw [isMarker]; decide)) (fun noSet ds related => ?_)
          fun ds related => ?_
        · have noMarker : ¬ (Shape.ofConcept head).isSetMarker = true :=
            mt (eq_setMarker_of_isSetMarker (hp.of_mem (by simp))) noSet
          have covered := forall₂_coveredBy inside related
          rw [← inOrder (by simpa using noMarker)] at covered
          rw [same (mt marker.mp noMarker)]
          exact renumbered covered
        · obtain ⟨es, among, covered⟩ :=
            Sequence.exists_forall₂_of_perm (forall₂_coveredBy inside related) order
          obtain ⟨fs, among', covered⟩ :=
            Sequence.exists_forall₂_of_perm (renumbered covered) perm
          exact ⟨fs, among'.trans among, covered⟩

/-! ## From patterns to generalizations -/

/-- The part of a concept is treated so that the shape of a pattern comes out. -/
def TreatedAs (p c : Concept) : Prop :=
  ∃ shape, Shape.Treats shape c ∧ shape.canonical = Shape.ofConcept p

theorem exists_shapes (h : List.Forall₂ TreatedAs ps cs) :
    ∃ shapes : List Shape, List.Forall₂ Shape.Treats shapes cs ∧
      shapes.map Shape.canonical = ps.map Shape.ofConcept := by
  induction h with
  | nil => exact ⟨[], .nil, rfl⟩
  | @cons p c ps cs first _ ih =>
    obtain ⟨shape, treats, same⟩ := first
    obtain ⟨shapes, related, canonical⟩ := ih
    exact ⟨shape :: shapes, .cons treats related, by rw [List.map_cons, same, canonical,
      List.map_cons]⟩

/-- The parts of a compound that is covered can be treated so that the shape of the pattern comes
out. -/
theorem exists_generalization_of_covers (hp : Clean (.compound ps)) (h : Covers (.compound ps) c)
    (opened : ¬ IsGround (.compound ps))
    (treated : ∀ p ∈ ps, ∀ d ∈ c.parts, Covers p d → TreatedAs p d) :
    ∃ shapes ∈ Shape.generalizations c, Shape.anyOpen shapes = true ∧
      Shape.canonical (.nested shapes) = Shape.ofConcept (.compound ps) := by
  have mentions : anyMentionsVariable ps = true := mentionsVariable_iff.mpr opened
  have shape : Shape.ofConcept (.compound ps) =
      .nested (Shape.arrange (ps.map Shape.ofConcept)) := by
    rw [Shape.ofConcept, if_pos mentions, Shape.ofConcepts_eq_map]
  obtain ⟨shapes, generalizes, same⟩ : ∃ shapes ∈ Shape.generalizations c,
      Shape.arrange (shapes.map Shape.canonical) = Shape.arrange (ps.map Shape.ofConcept) := by
    rcases covers_compound_iff.mp h with ⟨cs, rfl, parts⟩ | ⟨ms, ds, cs, rfl, rfl, members, perm⟩
    · obtain ⟨shapes, related, same⟩ :=
        exists_shapes (Sequence.forall₂_imp_of_mem treated parts)
      exact ⟨shapes, Shape.mem_choices_iff.mpr related, by rw [same]⟩
    · obtain ⟨shapes, related, same⟩ := exists_shapes <|
        Sequence.forall₂_imp_of_mem (fun p hm d hd => treated p (List.mem_cons_of_mem _ hm) d
          (List.mem_cons_of_mem _ (perm.mem_iff.mp hd))) members
      -- The members are generalized in their own order, which the canonical form forgets.
      obtain ⟨others, order, related⟩ := Sequence.exists_forall₂_of_perm related.flip perm.symm
      refine ⟨.fixed (.atom setMarker) :: others,
        Shape.mem_choices_iff.mpr (.cons (.keep _) related.flip), ?_⟩
      have members : (others.map Shape.canonical).Perm (ms.map Shape.ofConcept) :=
        same ▸ order.map Shape.canonical
      have canonical : ∀ s ∈ others.map Shape.canonical, Shape.IsCanonical s := by
        intro s hs
        obtain ⟨q, hq, rfl⟩ := List.mem_map.mp (members.mem_iff.mp hs)
        exact Shape.isCanonical_ofConcept (hp.of_mem (List.mem_cons_of_mem _ hq))
      have marker : (Shape.ofConcept (.atom setMarker)).isSetMarker = true := by decide
      rw [List.map_cons, List.map_cons, Shape.canonical]
      exact Shape.arrange_cons_of_perm canonical members fun noSet => by simp [marker] at noSet
  have canonical : Shape.canonical (.nested shapes) = Shape.ofConcept (.compound ps) := by
    rw [Shape.canonical, Shape.canonicals_eq_map, same, shape]
  refine ⟨shapes, generalizes, ?_, canonical⟩
  have isOpen : Shape.isOpen (.nested shapes) = true := by
    rw [← Shape.isOpen_canonical, canonical, Shape.isOpen_ofConcept]
    exact mentions
  exact isOpen

theorem Covers.treatedAs (h : Covers p c) (hp : p.Clean) (hc : c.Clean) : TreatedAs p c := by
  induction p generalizing c with
  | atom word =>
    by_cases hv : startsWith '$' word = true
    · exact ⟨.hole, .leave c, by simp [Shape.canonical, Shape.ofConcept, hv]⟩
    · cases h with
      | anything hv' => exact absurd hv' hv
      | word => exact ⟨.fixed _, .keep _, by rw [Shape.canonical]⟩
  | compound ps ih =>
    by_cases ground : IsGround (.compound ps)
    · obtain rfl := h.eq_of_isGround hp hc ground
      exact ⟨.fixed _, .keep _, by rw [Shape.canonical]⟩
    · obtain ⟨shapes, generalizes, opened, same⟩ := exists_generalization_of_covers hp h ground
        fun q hq d hd covers => ih q hq covers (hp.of_mem hq) (hc.of_mem_parts hd)
      exact ⟨.nested shapes, .inside generalizes opened, same⟩

/-- A mask fits whatever its pattern covers. -/
theorem Covers.isSome_match?_mask (h : Covers p c) (hp : p.Clean) (hc : c.Clean) :
    (c.match? p.mask).isSome = true := by
  have once : p.mask.vars.Nodup := hp.vars_mask_perm.nodup_iff.mpr (Bindings.nodup_namesFrom _ _)
  have free : ∀ name ∈ p.mask.vars, (∅ : Bindings)[name]? = none := by simp
  rw [match?, Option.isSome_iff_exists]
  exact hp.clean_mask.fitsWhereFree once hc (Bindings.allValues_empty _) free (h.number hp 0)

/-! ## Main statement -/

theorem isPattern_iff : p.isPattern = true ↔ p.isCompound = true ∧ ¬ p.IsGround := by
  rw [isPattern, Bool.and_eq_true, mentionsVariable_iff]

/-- A concept is indexed under the mask of each pattern that covers it. -/
theorem Covers.mask_mem_masks (h : Covers p c) (hp : p.Clean) (hc : c.Clean)
    (pattern : p.isPattern = true) (plain : p.HasPlainWord) : p.mask ∈ c.masks := by
  obtain ⟨compound, opened⟩ := isPattern_iff.mp pattern
  cases p with
  | atom => simp [isCompound, isAtom] at compound
  | compound ps =>
    obtain ⟨shapes, hs, isOpen, same⟩ := exists_generalization_of_covers hp h opened
      fun q hq d hd covers => covers.treatedAs (hp.of_mem hq) (hc.of_mem_parts hd)
    refine List.mem_filter.mpr ⟨?_, h.isSome_match?_mask hp hc⟩
    refine (mem_distinct fun m hm => ?_).mpr (List.mem_filter.mpr ⟨?_, ?_⟩)
    · obtain ⟨others, ho, rfl⟩ := List.mem_map.mp (List.mem_filter.mp hm).1
      obtain ⟨generalizes, opened⟩ := List.mem_filter.mp ho
      have canonical := Shape.isCanonical_of_mem_generalizations hc generalizes opened
      obtain ⟨count, numbering⟩ := canonical.formed.number 0
      exact numbering.clean
    · exact List.mem_map.mpr ⟨shapes, List.mem_filter.mpr ⟨hs, isOpen⟩, by rw [same, mask]⟩
    · rw [isAllVariables_eq_false_iff.mpr (hp.hasPlainWord_mask plain)]
      rfl

/-- A mask of a clean concept is a pattern, and its own mask. -/
theorem Clean.of_mem_masks (h : c.Clean) (hm : m ∈ c.masks) :
    m.Clean ∧ m.isPattern = true ∧ m.HasPlainWord ∧ (c.match? m).isSome = true ∧ m.mask = m := by
  obtain ⟨shapes, hs, opened, rfl, plain, fits⟩ := exists_of_mem_masks hm
  have canonical := Shape.isCanonical_of_mem_generalizations h hs opened
  obtain ⟨count, numbering⟩ := canonical.formed.number 0
  refine ⟨numbering.clean, ?_, isAllVariables_eq_false_iff.mp plain, fits, canonical.mask_toMask⟩
  have mentions : (Shape.canonical (.nested shapes)).toMask.mentionsVariable = true := by
    rw [← Shape.isOpen_ofConcept, Shape.toMask, canonical.ofConcept_number, Shape.isOpen_canonical]
    exact opened
  have compound : (Shape.canonical (.nested shapes)).toMask.isCompound = true := by
    rw [Shape.canonical] at canonical ⊢
    cases canonical with
    | nested two =>
      obtain ⟨_, _, q, _, placed, -, -, -, e, -⟩ :=
        Shape.exists_number_nested (R := fun _ _ => True) two (by simp) 0
      rw [Shape.toMask, e]
      rfl
  rw [isPattern, compound, mentions]
  rfl

/-- A clean concept has no mask twice, and its masks are just those of the clean patterns that fit
it and have a word that is no variable. Each of them fits the concept, and none fits everything. -/
theorem Clean.masks_spec (h : c.Clean) :
    (c.masks.map key).Nodup ∧
      (∀ m, m ∈ c.masks ↔ ∃ p, p.Clean ∧ p.isPattern = true ∧ p.HasPlainWord ∧
        (c.match? p).isSome = true ∧ p.mask = m) ∧
      ∀ m ∈ c.masks, m.isAllVariables = false ∧ (c.match? m).isSome = true := by
  refine ⟨nodup_keys_masks c, fun m => ⟨fun hm => ?_, ?_⟩, fun m hm => ?_⟩
  · obtain ⟨clean, pattern, plain, fits, same⟩ := h.of_mem_masks hm
    exact ⟨m, clean, pattern, plain, fits, same⟩
  · rintro ⟨p, clean, pattern, plain, fits, rfl⟩
    obtain ⟨b, fitted⟩ := Option.isSome_iff_exists.mp fits
    exact (clean.covers_of_unify h fitted).mask_mem_masks clean h pattern plain
  · obtain ⟨-, -, plain, fits, -⟩ := h.of_mem_masks hm
    exact ⟨isAllVariables_eq_false_iff.mpr plain, fits⟩

private def nestedNames : Concept :=
  .compound [.atom ":", .compound [.atom ":", .atom "x", .atom "y"], .atom "z"]

theorem nestedNames_masks : nestedNames.Clean ∧
    (nestedNames.masks.map key).Nodup ∧
    (∀ m, m ∈ nestedNames.masks ↔ ∃ p, p.Clean ∧ p.isPattern = true ∧ p.HasPlainWord ∧
      (nestedNames.match? p).isSome = true ∧ p.mask = m) := by
  have clean : nestedNames.Clean := by decide +kernel
  exact ⟨clean, clean.masks_spec.1, clean.masks_spec.2.1⟩

end ConceptSpace.Concept
