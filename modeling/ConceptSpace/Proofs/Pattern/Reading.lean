import ConceptSpace.Proofs.Concept.Inside
import ConceptSpace.Proofs.Pattern.Covering

/-!
# Reading a pattern as a concept

A pattern *reads as* a concept under bindings if the concept has its form, with the bound concepts
at the places of the variables, where the members of a set may be paired in any order. What the
search for a fit finds is such a reading (`Clean.readsAs_of_unify`).

A pattern reads as its instances, as long as no sequence has become a set, the members of which
stand in another order (`Clean.readsAs_instantiate`).
-/

namespace ConceptSpace.Concept

mutual

/-- Under bindings, a pattern has the form of a concept. -/
inductive ReadsAs (b : Bindings) : Concept → Concept → Prop where
  /-- A variable reads as what it is bound to. -/
  | bound {name : String} {c : Concept} (h : startsWith '$' name = true) (e : b[name]? = some c) :
    ReadsAs b (.atom name) c
  /-- Another word reads as itself. -/
  | word {word : String} (h : startsWith '$' word = false) : ReadsAs b (.atom word) (.atom word)
  /-- A compound is read part by part. -/
  | inOrder {ps cs : List Concept} (parts : AllReadAs b ps cs) :
    ReadsAs b (.compound ps) (.compound cs)
  /-- The members of a set are read in some order. -/
  | inAnyOrder {ps ds cs : List Concept} (members : AllReadAs b ps ds) (perm : ds.Perm cs) :
    ReadsAs b (.compound (.atom setMarker :: ps)) (.compound (.atom setMarker :: cs))

/-- Under bindings, patterns have the forms of concepts, one by one. -/
inductive AllReadAs (b : Bindings) : List Concept → List Concept → Prop where
  | nil : AllReadAs b [] []
  | cons {p c : Concept} {ps cs : List Concept} (first : ReadsAs b p c)
    (more : AllReadAs b ps cs) : AllReadAs b (p :: ps) (c :: cs)

end

variable {c d p head : Concept} {ps cs members : List Concept} {b b' all : Bindings}

theorem allReadAs_iff : AllReadAs b ps cs ↔ List.Forall₂ (ReadsAs b) ps cs := by
  constructor
  · intro h
    induction ps generalizing cs with
    | nil =>
      cases h
      exact .nil
    | cons p ps ih =>
      cases h with
      | cons first more => exact .cons first (ih more)
  · intro h
    induction h with
    | nil => exact .nil
    | cons first _ ih => exact .cons first ih

theorem readsAs_variable_iff {name : String} (hv : startsWith '$' name = true) :
    ReadsAs b (.atom name) c ↔ b[name]? = some c := by
  constructor
  · intro h
    cases h with
    | bound _ e => exact e
    | word hw => rw [hv] at hw; contradiction
  · exact .bound hv

theorem readsAs_word_iff {word : String} (hv : startsWith '$' word = false) :
    ReadsAs b (.atom word) c ↔ c = .atom word := by
  constructor
  · intro h
    cases h with
    | bound hw => rw [hv] at hw; contradiction
    | word => rfl
  · rintro rfl
    exact .word hv

/-- A compound is read part by part, where the members of a set may stand in another order. -/
theorem readsAs_compound_iff : ReadsAs b (.compound ps) c ↔
    (∃ cs, c = .compound cs ∧ List.Forall₂ (ReadsAs b) ps cs) ∨
      ∃ ms ds cs, ps = .atom setMarker :: ms ∧ c = .compound (.atom setMarker :: cs) ∧
        List.Forall₂ (ReadsAs b) ms ds ∧ ds.Perm cs := by
  constructor
  · intro h
    cases h with
    | inOrder parts => exact .inl ⟨_, rfl, allReadAs_iff.mp parts⟩
    | inAnyOrder members perm => exact .inr ⟨_, _, _, rfl, rfl, allReadAs_iff.mp members, perm⟩
  · rintro (⟨cs, rfl, parts⟩ | ⟨ms, ds, cs, rfl, rfl, members, perm⟩)
    · exact .inOrder (allReadAs_iff.mpr parts)
    · exact .inAnyOrder (allReadAs_iff.mpr members) perm

/-- A set reads as a set, the members in some order. -/
theorem readsAs_set_iff : ReadsAs b (.compound (.atom setMarker :: ps)) c ↔
    ∃ ds cs, c = .compound (.atom setMarker :: cs) ∧ List.Forall₂ (ReadsAs b) ps ds ∧
      ds.Perm cs := by
  rw [readsAs_compound_iff]
  constructor
  · rintro (⟨cs, rfl, parts⟩ | ⟨ms, ds, cs, e, rfl, members, perm⟩)
    · cases parts with
      | cons first parts =>
        obtain rfl := (readsAs_word_iff (by decide)).mp first
        exact ⟨_, _, rfl, parts, .refl _⟩
    · obtain rfl : ps = ms := (List.cons.inj e).2
      exact ⟨ds, cs, rfl, members, perm⟩
  · rintro ⟨ds, cs, rfl, members, perm⟩
    exact .inr ⟨ps, ds, cs, rfl, rfl, members, perm⟩

/-- A sequence is read part by part. -/
theorem Clean.readsAs_sequence_iff (h : Clean (.compound ps))
    (noSet : isSet (.compound ps) = false) : ReadsAs b (.compound ps) c ↔
      ∃ cs, c = .compound cs ∧ List.Forall₂ (ReadsAs b) ps cs := by
  rw [readsAs_compound_iff]
  refine or_iff_left ?_
  rintro ⟨ms, ds, cs, rfl, -⟩
  exact absurd noSet (by simp [isSet])

theorem ReadsAs.mono (h : ReadsAs b p c) (part : b.IsPartOf all) : ReadsAs all p c := by
  induction p generalizing c with
  | atom word =>
    cases h with
    | bound hv e => exact .bound hv (part e)
    | word hv => exact .word hv
  | compound ps ih =>
    rcases readsAs_compound_iff.mp h with ⟨cs, rfl, parts⟩ | ⟨ms, ds, cs, rfl, rfl, members, perm⟩
    · refine .inOrder (allReadAs_iff.mpr ?_)
      exact Sequence.forall₂_imp_of_mem (fun q hq _ _ => ih q hq) parts
    · refine .inAnyOrder (allReadAs_iff.mpr ?_) perm
      exact Sequence.forall₂_imp_of_mem (fun q hq _ _ => ih q (List.mem_cons_of_mem _ hq)) members

/-- A pattern covers what it reads as. -/
theorem ReadsAs.covers (h : ReadsAs b p c) : Covers p c := by
  induction p generalizing c with
  | atom word =>
    cases h with
    | bound hv => exact .anything hv c
    | word => exact .word word
  | compound ps ih =>
    rcases readsAs_compound_iff.mp h with ⟨cs, rfl, parts⟩ | ⟨ms, ds, cs, rfl, rfl, members, perm⟩
    · refine .inOrder (coversAll_iff.mpr ?_)
      exact Sequence.forall₂_imp_of_mem (fun q hq _ _ => ih q hq) parts
    · refine .inAnyOrder (coversAll_iff.mpr ?_) perm
      exact Sequence.forall₂_imp_of_mem (fun q hq _ _ => ih q (List.mem_cons_of_mem _ hq)) members

/-- The variables of a pattern that is read are bound. -/
theorem ReadsAs.ne_none (h : ReadsAs b p c) {name : String} (hn : name ∈ p.vars) :
    b[name]? ≠ none := by
  induction p generalizing c with
  | atom word =>
    obtain rfl : name = word := by simpa using mem_words_of_mem_vars hn
    rw [(readsAs_variable_iff (List.mem_filter.mp hn).2).mp h]
    simp
  | compound ps ih =>
    rw [vars_compound, List.mem_flatMap] at hn
    obtain ⟨q, hq, hn⟩ := hn
    rcases readsAs_compound_iff.mp h with ⟨cs, rfl, parts⟩ | ⟨ms, ds, cs, rfl, rfl, members, -⟩
    · obtain ⟨d, -, reads⟩ := Sequence.exists_of_mem_left parts hq
      exact ih q hq reads hn
    · rcases List.mem_cons.mp hq with rfl | hq
      · exact absurd hn (by simp [vars_atom, show startsWith '$' setMarker = false by decide])
      · obtain ⟨d, -, reads⟩ := Sequence.exists_of_mem_left members hq
        exact ih q (List.mem_cons_of_mem _ hq) reads hn

/-! ## What is fitted is read -/

theorem forall₂_readsAs_of_inOrder (clean : ∀ p ∈ ps, p.Clean)
    (hp : ∀ p ∈ ps, ∀ c ∈ cs, ∀ b b' : Bindings, b.AllValues Clean →
      unify p c b = some b' → ReadsAs b' p c)
    (hc : ∀ c ∈ cs, c.Clean) (hb : b.AllValues Clean) (length : ps.length = cs.length)
    (h : Matcher.inOrder (ps.map unify) cs b = some b') : List.Forall₂ (ReadsAs b') ps cs := by
  induction ps generalizing cs b with
  | nil =>
    obtain rfl : cs = [] := by simpa using length.symm
    exact .nil
  | cons p ps ih =>
    match cs, length with
    | c :: cs, length =>
      obtain ⟨b₁, first, rest⟩ := Option.bind_eq_some_iff.mp h
      have fits := (clean p (by simp)).fitsSoundly (hc c (by simp)) hb first
      obtain ⟨extended, -⟩ := inOrder_sound (fun q hq => (clean q (by simp [hq])).fitsSoundly)
        (fun d hd => hc d (by simp [hd])) fits.clean (by simpa using length) rest
      refine .cons ((hp p (by simp) c (by simp) b b₁ hb first).mono extended.keeps) ?_
      exact ih (fun q hq => clean q (by simp [hq]))
        (fun q hq d hd => hp q (by simp [hq]) d (by simp [hd])) (fun d hd => hc d (by simp [hd]))
        fits.clean (by simpa using length) rest

theorem exists_forall₂_readsAs_of_inAnyOrder (clean : ∀ p ∈ ps, p.Clean)
    (hp : ∀ p ∈ ps, ∀ c ∈ cs, ∀ b b' : Bindings, b.AllValues Clean →
      unify p c b = some b' → ReadsAs b' p c)
    (hc : ∀ c ∈ cs, c.Clean) (hb : b.AllValues Clean) (length : ps.length = cs.length)
    (h : Matcher.inAnyOrder (ps.map unify) cs b = some b') :
    ∃ ds : List Concept, List.Forall₂ (ReadsAs b') ps ds ∧ ds.Perm cs := by
  induction ps generalizing cs b with
  | nil =>
    obtain rfl : cs = [] := by simpa using length.symm
    exact ⟨[], .nil, .nil⟩
  | cons p ps ih =>
    obtain ⟨⟨c, rest⟩, picked, found⟩ := List.exists_of_findSome?_eq_some h
    have split := Matcher.perm_of_mem_picks picked
    have mem : ∀ d, d ∈ c :: rest → d ∈ cs := fun d hd => split.mem_iff.mpr hd
    obtain ⟨b₁, first, others⟩ := Option.bind_eq_some_iff.mp found
    have left : ps.length = rest.length := by simpa [split.length_eq] using length
    have fits := (clean p (by simp)).fitsSoundly (hc c (mem c (by simp))) hb first
    obtain ⟨extended, -⟩ := inAnyOrder_sound (fun q hq => (clean q (by simp [hq])).fitsSoundly)
      (fun d hd => hc d (mem d (by simp [hd]))) fits.clean left others
    obtain ⟨ds, related, perm⟩ := ih (fun q hq => clean q (by simp [hq]))
      (fun q hq d hd => hp q (by simp [hq]) d (mem d (by simp [hd])))
      (fun d hd => hc d (mem d (by simp [hd]))) fits.clean left others
    refine ⟨c :: ds, .cons ?_ related, (perm.cons c).trans split.symm⟩
    exact (hp p (by simp) c (mem c (by simp)) b b₁ hb first).mono extended.keeps

/-- A pattern that has been fitted to a concept reads as this concept. -/
theorem Clean.readsAs_of_unify (hp : p.Clean) (hc : c.Clean) (hb : b.AllValues Clean)
    (h : unify p c b = some b') : ReadsAs b' p c := by
  induction p generalizing c b b' with
  | atom word =>
    unfold unify at h
    by_cases hv : startsWith '$' word = true
    · rw [if_pos hv] at h
      exact .bound hv (Bindings.extends_of_bind? hc hb h).2
    · rw [if_neg hv] at h
      split at h
      case h_1 found =>
        obtain ⟨rfl, -⟩ : found = word ∧ b = b' := by simpa using h
        exact .word (by simpa using hv)
      case h_2 => simp at h
  | compound ps ih =>
    cases c with
    | atom => simp [unify] at h
    | compound cs =>
      simp only [unify] at h
      split at h
      case isTrue => simp at h
      case isFalse length =>
        have length : ps.length = cs.length := by simpa using length
        have reads : ∀ q ∈ ps, ∀ d ∈ cs, ∀ b b' : Bindings, b.AllValues Clean →
            unify q d b = some b' → ReadsAs b' q d := fun q hq d hd b b' hb found =>
          ih q hq (hp.of_mem hq) (hc.of_mem hd) hb found
        split at h
        case isTrue sets =>
          -- The members were fitted in the order of the search, the ground ones first.
          simp only [Bool.and_eq_true] at sets
          obtain ⟨members, rfl⟩ := hp.exists_of_isSet sets.1
          obtain ⟨placed, rfl⟩ := hc.exists_of_isSet sets.2
          obtain ⟨ordered, order, e⟩ := Matcher.exists_groundFirst_eq members
          simp only [matchers, List.tail_cons, e] at h
          have mem : ∀ q, q ∈ ordered → q ∈ .atom setMarker :: members := fun q hq =>
            List.mem_cons_of_mem _ (order.mem_iff.mp hq)
          obtain ⟨ds, related, perm⟩ := exists_forall₂_readsAs_of_inAnyOrder
            (fun q hq => hp.of_mem (mem q hq))
            (fun q hq d hd => reads q (mem q hq) d (List.mem_cons_of_mem _ hd))
            (fun d hd => hc.of_mem (List.mem_cons_of_mem _ hd)) hb
            (by simpa [order.length_eq] using length) h
          obtain ⟨es, perm', related⟩ := Sequence.exists_forall₂_of_perm related order.symm
          exact .inAnyOrder (allReadAs_iff.mpr related) (perm'.trans perm)
        case isFalse =>
          rw [matchers_eq_map, List.map_map] at h
          exact .inOrder (allReadAs_iff.mpr (forall₂_readsAs_of_inOrder
            (fun q hq => hp.of_mem hq) reads (fun d hd => hc.of_mem hd) hb length h))

/-! ## What is inside -/

/-- Bindings make no set of a compound with several members that is none. -/
def KeepsOrder (b : Bindings) (c : Concept) : Prop :=
  ∀ d ∈ c :: c.inside, 2 < d.parts.length → (d.instantiate b).isSet = true → d.isSet = true

instance (b : Bindings) : DecidablePred (KeepsOrder b) := fun c =>
  inferInstanceAs (Decidable (∀ d ∈ c :: c.inside, 2 < d.parts.length →
    (d.instantiate b).isSet = true → d.isSet = true))

theorem mem_cons_inside_of_mem (hp : p ∈ ps) (hd : d ∈ p :: p.inside) :
    d ∈ compound ps :: (compound ps).inside :=
  List.mem_cons_of_mem _ (mem_inside_iff.mpr ⟨p, hp, List.mem_cons.mp hd⟩)

theorem KeepsOrder.of_mem (h : KeepsOrder b (.compound ps)) (hp : p ∈ ps) : KeepsOrder b p :=
  fun _ hd => h _ (mem_cons_inside_of_mem hp hd)

theorem Clean.of_mem_cons_inside (h : c.Clean) (hd : d ∈ c :: c.inside) : d.Clean := by
  rcases List.mem_cons.mp hd with rfl | hd
  · exact h
  · exact h.of_mem_inside hd

theorem mem_vars_of_mem_cons_inside {name : String} (hd : d ∈ c :: c.inside) (hn : name ∈ d.vars) :
    name ∈ c.vars := by
  induction c with
  | atom word =>
    obtain rfl : d = .atom word := by simpa [inside] using hd
    exact hn
  | compound ps ih =>
    rcases List.mem_cons.mp hd with rfl | hd
    · exact hn
    · obtain ⟨p, hp, hd⟩ := mem_inside_iff.mp hd
      exact mem_vars_of_mem hp (ih p hp (List.mem_cons.mpr hd))

theorem IsGround.of_mem_cons_inside (h : c.IsGround) (hd : d ∈ c :: c.inside) : d.IsGround :=
  List.eq_nil_iff_forall_not_mem.mpr fun name hn => by
    have := mem_vars_of_mem_cons_inside hd hn
    rw [h] at this
    simp at this

/-! ## Sets among instances -/

/-- An instance is a set if the head has become the set marker. -/
theorem Clean.isSet_instantiate (h : Clean (.compound (head :: members))) (b : Bindings) :
    ((compound (head :: members)).instantiate b).isSet =
      ((head.instantiate b).key == setMarker) := by
  rw [h.instantiate_cons]
  rfl

/-- What becomes the set marker is the set marker, or a variable that is bound to it. -/
theorem eq_or_bound_of_instantiate_eq_setMarker (h : c.Clean)
    (e : c.instantiate b = .atom setMarker) : c = .atom setMarker ∨ ∃ name,
      c = .atom name ∧ startsWith '$' name = true ∧ b[name]? = some (.atom setMarker) := by
  cases c with
  | atom word =>
    by_cases hv : startsWith '$' word = true
    · cases bound : b[word]? with
      | some value =>
        rw [instantiate_atom_of_bound hv bound] at e
        exact .inr ⟨word, rfl, hv, e ▸ bound⟩
      | none =>
        obtain rfl : word = setMarker := by simpa [instantiate, bound] using e
        exact absurd hv (by decide)
    · exact .inl (by rwa [instantiate_atom_of_not_variable (by simpa using hv)] at e)
  | compound ps =>
    obtain ⟨placed, e', -⟩ := h.instantiate_compound_eq b
    rw [e'] at e
    exact absurd e (by simp)

/-- Bindings make no more sets than larger ones. -/
theorem Clean.isSet_instantiate_of_isPartOf (h : Clean (.compound ps)) (hb : b.AllValues Clean)
    (part : b.IsPartOf all) (set : ((compound ps).instantiate b).isSet = true) :
    ((compound ps).instantiate all).isSet = true := by
  obtain ⟨head, members, rfl⟩ := List.exists_cons_of_ne_nil h.ne_nil
  have cleanHead : head.Clean := h.of_mem (by simp)
  rw [h.isSet_instantiate, beq_iff_eq] at set ⊢
  rcases eq_or_bound_of_instantiate_eq_setMarker cleanHead
    ((cleanHead.instantiate hb).eq_setMarker_of_key set) with rfl | ⟨name, rfl, hv, bound⟩
  · rw [instantiate_atom_of_not_variable (by decide)]
    rfl
  · rw [instantiate_atom_of_bound hv (part bound)]
    rfl

theorem KeepsOrder.of_isPartOf (h : KeepsOrder all c) (hc : c.Clean) (hb : b.AllValues Clean)
    (part : b.IsPartOf all) : KeepsOrder b c := by
  intro d hd several set
  cases d with
  | atom => simp at several
  | compound ps =>
    exact h _ hd several ((hc.of_mem_cons_inside hd).isSet_instantiate_of_isPartOf hb part set)

/-- An instance that is no set has the instances of the parts in their order. -/
theorem Clean.instantiate_compound_of_isSet_eq_false (h : Clean (.compound ps))
    (noSet : ((compound ps).instantiate b).isSet = false) :
    (compound ps).instantiate b = .compound (ps.map (Concept.instantiate b)) := by
  obtain ⟨head, members, rfl⟩ := List.exists_cons_of_ne_nil h.ne_nil
  rw [h.isSet_instantiate, beq_eq_false_iff_ne] at noSet
  exact h.instantiate_compound_of_isArranged fun marker => absurd marker noSet

/-- As long as no sequence becomes a set, the instance of one has the instances of its parts in
their order. -/
theorem Clean.instantiate_compound_of_keepsOrder (h : Clean (.compound ps))
    (keeps : KeepsOrder b (.compound ps)) (noSet : isSet (.compound ps) = false) :
    (compound ps).instantiate b = .compound (ps.map (Concept.instantiate b)) := by
  refine h.instantiate_compound_of_isArranged ?_
  cases ps with
  | nil => trivial
  | cons head members =>
    intro marker
    have set : ((compound (head :: members)).instantiate b).isSet = true := by
      rw [h.isSet_instantiate, marker]
      rfl
    have short : members.length ≤ 1 := by
      by_contra several
      have set := keeps _ (List.mem_cons_self ..) (by rw [parts_compound, List.length_cons]; omega)
        set
      rw [noSet] at set
      contradiction
    match members, short with
    | [], _ => exact .nil
    | [member], _ => exact List.pairwise_singleton _ _

/-! ## Instances are read -/

/-- As long as no sequence becomes a set, a pattern reads as its instances. -/
theorem Clean.readsAs_instantiate (h : p.Clean) (keeps : KeepsOrder b p)
    (bound : ∀ name ∈ p.vars, b[name]? ≠ none) : ReadsAs b p (p.instantiate b) := by
  induction p with
  | atom word =>
    by_cases hv : startsWith '$' word = true
    · obtain ⟨value, e⟩ := Option.ne_none_iff_exists'.mp (bound word (by simp [vars_atom, hv]))
      rw [instantiate_atom_of_bound hv e]
      exact .bound hv e
    · have hv : startsWith '$' word = false := by simpa using hv
      rw [instantiate_atom_of_not_variable hv]
      exact .word hv
  | compound ps ih =>
    have parts : ∀ q ∈ ps, ReadsAs b q (q.instantiate b) := fun q hq =>
      ih q hq (h.of_mem hq) (keeps.of_mem hq) fun name hn => bound name (mem_vars_of_mem hq hn)
    by_cases set : isSet (.compound ps) = true
    · obtain ⟨members, rfl⟩ := h.exists_of_isSet set
      obtain ⟨placed, e, perm, -⟩ := node_eq_compound (.atom setMarker)
        (members.map (Concept.instantiate b))
      rw [h.instantiate_cons, instantiate_atom_of_not_variable (by decide), e]
      refine .inAnyOrder (allReadAs_iff.mpr ?_) perm.symm
      rw [List.forall₂_map_right_iff, List.forall₂_same]
      exact fun q hq => parts q (List.mem_cons_of_mem _ hq)
    · rw [h.instantiate_compound_of_keepsOrder keeps (by simpa using set)]
      refine .inOrder (allReadAs_iff.mpr ?_)
      rwa [List.forall₂_map_right_iff, List.forall₂_same]

/-! ## Inside an instance -/

/-- What is inside a concept becomes something inside the instance. -/
theorem Clean.instantiate_mem_cons_inside (h : c.Clean) (hd : d ∈ c :: c.inside) (b : Bindings) :
    d.instantiate b ∈ c.instantiate b :: (c.instantiate b).inside := by
  induction c with
  | atom word =>
    obtain rfl : d = .atom word := by simpa [inside] using hd
    exact List.mem_cons_self ..
  | compound ps ih =>
    rcases List.mem_cons.mp hd with rfl | hd
    · exact List.mem_cons_self ..
    · obtain ⟨p, hp, hd⟩ := mem_inside_iff.mp hd
      obtain ⟨placed, e, perm, -⟩ := h.instantiate_compound_eq b
      rw [e]
      exact mem_cons_inside_of_mem (perm.mem_iff.mpr (List.mem_map_of_mem hp))
        (ih p hp (h.of_mem hp) (List.mem_cons.mpr hd))

/-- What is inside an instance stands inside a bound concept, is a word, or comes of a compound
inside the concept. -/
theorem Clean.of_mem_cons_inside_instantiate (h : c.Clean)
    (hd : d ∈ c.instantiate b :: (c.instantiate b).inside) :
    (∃ name ∈ c.vars, ∃ value, b[name]? = some value ∧ d ∈ value :: value.inside) ∨
      (∃ word, d = .atom word) ∨
        ∃ ps, compound ps ∈ c :: c.inside ∧ d = (compound ps).instantiate b := by
  induction c with
  | atom word =>
    by_cases bound : startsWith '$' word = true ∧ ∃ value, b[word]? = some value
    · obtain ⟨hv, value, bound⟩ := bound
      rw [instantiate_atom_of_bound hv bound] at hd
      exact .inl ⟨word, by simp [vars_atom, hv], value, bound, hd⟩
    · have same : (Concept.atom word).instantiate b = .atom word := by
        by_cases hv : startsWith '$' word = true
        · have none : b[word]? = none :=
            Option.eq_none_iff_forall_ne_some.mpr fun value e => bound ⟨hv, value, e⟩
          simp [Concept.instantiate, none]
        · exact instantiate_atom_of_not_variable (by simpa using hv)
      rw [same] at hd
      exact .inr (.inl ⟨word, by simpa [inside] using hd⟩)
  | compound ps ih =>
    rcases List.mem_cons.mp hd with rfl | hd
    · exact .inr (.inr ⟨ps, List.mem_cons_self .., rfl⟩)
    · obtain ⟨placed, e, perm, -⟩ := h.instantiate_compound_eq b
      rw [e] at hd
      obtain ⟨q, hq, hd⟩ := mem_inside_iff.mp hd
      obtain ⟨p, hp, rfl⟩ := List.mem_map.mp (perm.mem_iff.mp hq)
      rcases ih p hp (h.of_mem hp) (List.mem_cons.mpr hd) with
        ⟨name, hn, value, bound, hd⟩ | word | ⟨qs, hqs, rfl⟩
      · exact .inl ⟨name, mem_vars_of_mem hp hn, value, bound, hd⟩
      · exact .inr (.inl word)
      · exact .inr (.inr ⟨qs, mem_cons_inside_of_mem hp hqs, rfl⟩)

/-! ## Renaming variables -/

/-- Bindings of the variables of a concept to variables. -/
def Renames (b : Bindings) (c : Concept) : Prop :=
  ∀ name ∈ c.vars, ∃ other, startsWith '$' other = true ∧ b[name]? = some (.atom other)

theorem Renames.of_mem_cons_inside (h : Renames b c) (hd : d ∈ c :: c.inside) : Renames b d :=
  fun name hn => h name (mem_vars_of_mem_cons_inside hd hn)

theorem Renames.not_isGround (h : Renames b c) (hc : c.Clean) (opened : ¬ c.IsGround) :
    ¬ (c.instantiate b).IsGround := by
  obtain ⟨name, hn⟩ := List.exists_mem_of_ne_nil _ opened
  obtain ⟨other, hv, e⟩ := h name hn
  have renamed : other ∈ (c.instantiate b).vars := by
    refine hc.mem_vars_instantiate.mpr ⟨name, hn, ?_⟩
    rw [instantiate_atom_of_bound (List.mem_filter.mp hn).2 e, vars_atom, if_pos hv]
    exact List.mem_singleton_self other
  exact List.ne_nil_of_mem renamed

/-- With its variables renamed, a sequence is no set. -/
theorem Renames.isSet_of_isSet_instantiate (h : Renames b (.compound ps))
    (hp : Clean (.compound ps)) (hb : b.AllValues Clean)
    (set : ((compound ps).instantiate b).isSet = true) : isSet (.compound ps) = true := by
  obtain ⟨head, members, rfl⟩ := List.exists_cons_of_ne_nil hp.ne_nil
  have cleanHead : head.Clean := hp.of_mem (by simp)
  rw [hp.isSet_instantiate, beq_iff_eq] at set
  rcases eq_or_bound_of_instantiate_eq_setMarker cleanHead
    ((cleanHead.instantiate hb).eq_setMarker_of_key set) with rfl | ⟨name, rfl, hv, bound⟩
  · rfl
  · obtain ⟨other, hv', e⟩ := h name (mem_vars_of_mem (List.mem_cons_self ..) (by
      simp [vars_atom, hv]))
    obtain rfl : setMarker = other := by simpa [bound] using e
    exact absurd hv' (by decide)

/-- A pattern with its variables renamed reads as what the pattern reads as, if the variables keep
their values. -/
theorem Clean.readsAs_instantiate_iff_of_renames (h : p.Clean) {ρ : Bindings}
    (hρ : ρ.AllValues Clean) (renames : Renames ρ p)
    (same : ∀ name ∈ p.vars, ∀ other, ρ[name]? = some (.atom other) → all[name]? = b[other]?) :
    ReadsAs b (p.instantiate ρ) c ↔ ReadsAs all p c := by
  induction p generalizing c with
  | atom word =>
    by_cases hv : startsWith '$' word = true
    · have hn : word ∈ (Concept.atom word).vars := by simp [vars_atom, hv]
      obtain ⟨other, ho, e⟩ := renames word hn
      rw [instantiate_atom_of_bound hv e, readsAs_variable_iff ho, readsAs_variable_iff hv,
        same word hn other e]
    · have hv : startsWith '$' word = false := by simpa using hv
      rw [instantiate_atom_of_not_variable hv, readsAs_word_iff hv, readsAs_word_iff hv]
  | compound ps ih =>
    have parts : ∀ q ∈ ps, ∀ c, ReadsAs b (q.instantiate ρ) c ↔ ReadsAs all q c := fun q hq c =>
      ih q hq (h.of_mem hq) (fun name hn => renames name (mem_vars_of_mem hq hn))
        fun name hn => same name (mem_vars_of_mem hq hn)
    have all_parts : ∀ {qs : List Concept}, (∀ q ∈ qs, q ∈ ps) → ∀ cs,
        List.Forall₂ (ReadsAs b) (qs.map (Concept.instantiate ρ)) cs ↔
          List.Forall₂ (ReadsAs all) qs cs := by
      intro qs among cs
      rw [List.forall₂_map_left_iff]
      exact ⟨Sequence.forall₂_imp_of_mem fun q hq c _ => (parts q (among q hq) c).mp,
        Sequence.forall₂_imp_of_mem fun q hq c _ => (parts q (among q hq) c).mpr⟩
    by_cases set : isSet (.compound ps) = true
    · obtain ⟨members, rfl⟩ := h.exists_of_isSet set
      obtain ⟨placed, e, order, -⟩ := node_eq_compound (.atom setMarker)
        (members.map (Concept.instantiate ρ))
      rw [h.instantiate_cons, instantiate_atom_of_not_variable (by decide), e, readsAs_set_iff,
        readsAs_set_iff]
      have reorder := @all_parts members fun q hq => List.mem_cons_of_mem _ hq
      constructor
      · rintro ⟨ds, cs, rfl, related, perm⟩
        obtain ⟨es, perm', related⟩ := Sequence.exists_forall₂_of_perm related order.symm
        exact ⟨es, cs, rfl, (reorder es).mp related, perm'.trans perm⟩
      · rintro ⟨ds, cs, rfl, related, perm⟩
        obtain ⟨es, perm', related⟩ :=
          Sequence.exists_forall₂_of_perm ((reorder ds).mpr related) order
        exact ⟨es, cs, rfl, related, perm'.trans perm⟩
    · have noSet : isSet (.compound ps) = false := by simpa using set
      have noSet' : ((compound ps).instantiate ρ).isSet = false := by
        by_contra set'
        exact set (renames.isSet_of_isSet_instantiate h hρ (by simpa using set'))
      have keeps := h.instantiate_compound_of_isSet_eq_false noSet'
      have clean := h.instantiate hρ
      rw [keeps] at noSet' clean ⊢
      rw [clean.readsAs_sequence_iff noSet', h.readsAs_sequence_iff noSet]
      exact exists_congr fun cs => and_congr_right fun _ => all_parts (fun _ hq => hq) cs

end ConceptSpace.Concept
