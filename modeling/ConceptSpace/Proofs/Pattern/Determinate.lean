import ConceptSpace.Proofs.Pattern.Settled

/-!
# Patterns that fit in one way only

The members of a set can be paired with those of a pattern in any order, and the search for a
pairing stops at the first that works, so that other bindings are not found. There is no choice if
at most one member of each set in the pattern has variables: the others take out themselves. Such a
pattern is *determinate*. Whatever it reads as it is fitted to, under the bindings of this reading
(`Clean.exists_unify_of_readsAs`).

Putting ground concepts in for some of the variables leaves a pattern determinate
(`IsDeterminate.instantiate`).
-/

namespace ConceptSpace

namespace Concept

variable {c d p head : Concept} {ps members : List Concept} {b all : Bindings}

/-! ## Determinate patterns -/

/-- Each set that a concept holds or is has at most one member with variables. -/
def IsDeterminate (c : Concept) : Prop :=
  ∀ d ∈ c :: c.inside, d.isSet = true → d.openMembers.length ≤ 1

instance : DecidablePred IsDeterminate := fun c =>
  inferInstanceAs (Decidable (∀ d ∈ c :: c.inside, d.isSet = true → d.openMembers.length ≤ 1))

theorem IsDeterminate.of_mem (h : IsDeterminate (.compound ps)) (hp : p ∈ ps) : p.IsDeterminate :=
  fun _ hd => h _ (mem_cons_inside_of_mem hp hd)

theorem IsGround.openMembers_eq_nil (h : c.IsGround) : c.openMembers = [] := by
  refine List.filter_eq_nil_iff.mpr fun p hp => ?_
  rw [mentionsVariable_iff, not_not]
  exact h.of_mem_parts (List.mem_of_mem_tail hp)

/-! ## Fitting -/

/-- A determinate pattern leaves no choice, wherever it stands. -/
theorem IsDeterminate.isSettledWithin (h : c.IsDeterminate) (passed ahead : List String) :
    c.IsSettledWithin passed ahead := by
  induction c generalizing passed ahead with
  | atom => trivial
  | compound ps ih =>
    exact ⟨fun set => .inl (h _ (List.mem_cons_self ..) set),
      .of_forall fun q hq => ih q hq (h.of_mem hq)⟩

/-- A determinate pattern is fitted to what it reads as, and no other variables are bound. -/
theorem Clean.exists_unify_of_readsAs (hp : p.Clean) (determinate : p.IsDeterminate)
    (hc : c.Clean) (hall : all.AllValues Clean) (h : ReadsAs all p c) (hb : b.IsPartOf all) :
    ∃ b', unify p c b = some b' ∧ b'.IsPartOf all := by
  have start : all.IsOnCourse [] (p.vars ++ p.vars) b := .of_isPartOf hb hall _
  obtain ⟨b', found, course⟩ :=
    hp.keepsCourse (determinate.isSettledWithin [] p.vars) hc h start
  have fits := hp.fitsSoundly hc start.clean found
  refine ⟨b', found, fun name value e => ?_⟩
  by_cases own : name ∈ p.vars
  · rw [← course.right name own (by simp [e]), e]
  · have old : b[name]? ≠ none := ((fits.binds name).mp (by simp [e])).resolve_right own
    exact hb ((fits.getElem?_eq old).symm.trans e)

/-- A determinate pattern is fitted to a concept just under the bindings under which it reads as the
concept. -/
theorem Clean.match?_eq_some_iff_of_isDeterminate (hp : p.Clean) (determinate : p.IsDeterminate)
    (hc : c.Clean) : c.match? p = some b ↔
      ReadsAs b p c ∧ b.AllValues Clean ∧ ∀ name : String, b[name]? ≠ none → name ∈ p.vars := by
  constructor
  · intro h
    have fits := hp.fits_of_match? hc h
    exact ⟨hp.readsAs_of_unify hc (Bindings.allValues_empty _) h, fits.clean,
      fun name => fits.ne_none_iff.mp⟩
  · rintro ⟨reads, clean, names⟩
    obtain ⟨b', found, part⟩ := hp.exists_unify_of_readsAs determinate hc clean reads
      (Bindings.isPartOf_empty b)
    have fits := hp.fits_of_match? hc found
    obtain rfl := Bindings.eq_of_isPartOf part fun name hn => fits.ne_none_iff.mpr (names name hn)
    exact found

/-! ## Putting concepts into a determinate pattern -/

theorem Clean.length_parts_instantiate (h : Clean (.compound ps)) (b : Bindings) :
    ((compound ps).instantiate b).parts.length = ps.length := by
  obtain ⟨placed, e, perm, -⟩ := h.instantiate_compound_eq b
  rw [e, parts_compound, perm.length_eq, List.length_map]

/-- The open members of an instance are instances of members. -/
theorem Clean.length_openMembers_instantiate (h : Clean (.compound (head :: members)))
    (b : Bindings) : ((compound (head :: members)).instantiate b).openMembers.length =
      members.countP fun p => (p.instantiate b).mentionsVariable := by
  obtain ⟨placed, e, perm, -⟩ := node_eq_compound (head.instantiate b)
    (members.map (Concept.instantiate b))
  rw [h.instantiate_cons, e, openMembers, parts_compound, List.tail_cons,
    ← List.countP_eq_length_filter, perm.countP_eq, List.countP_map]
  rfl

theorem length_openMembers (head : Concept) (members : List Concept) :
    (compound (head :: members)).openMembers.length = members.countP (·.mentionsVariable) := by
  rw [openMembers, parts_compound, List.tail_cons, ← List.countP_eq_length_filter]

theorem length_openMembers_le (c : Concept) : c.openMembers.length ≤ c.parts.length - 1 := by
  rw [← List.length_tail]
  exact List.length_filter_le _ _

/-- Ground members stay ground. -/
theorem Clean.length_openMembers_instantiate_le (h : Clean (.compound ps)) (b : Bindings) :
    ((compound ps).instantiate b).openMembers.length ≤ (compound ps).openMembers.length := by
  obtain ⟨head, members, rfl⟩ := List.exists_cons_of_ne_nil h.ne_nil
  rw [h.length_openMembers_instantiate, length_openMembers]
  refine List.countP_mono_left fun p hp opened => ?_
  have clean : p.Clean := h.of_mem (by simp [hp])
  rw [mentionsVariable_iff] at opened ⊢
  exact fun isGround => opened (by rwa [clean.instantiate_of_isGround isGround])

section Instance

variable (hc : c.Clean)
  (ground : ∀ name ∈ c.vars, ∀ value, b[name]? = some value → value.IsGround)

include hc ground in
/-- With ground concepts put in for variables, a pattern stays determinate. -/
theorem IsDeterminate.instantiate (h : c.IsDeterminate) (keeps : KeepsOrder b c) :
    (c.instantiate b).IsDeterminate := by
  intro d hd set
  rcases hc.of_mem_cons_inside_instantiate hd with
    ⟨name, hn, value, e, hd⟩ | ⟨word, rfl⟩ | ⟨ps, he, rfl⟩
  · rw [((ground name hn value e).of_mem_cons_inside hd).openMembers_eq_nil]
    exact Nat.zero_le _
  · exact absurd set (by simp [isSet])
  · have clean : Clean (.compound ps) := hc.of_mem_cons_inside he
    refine Nat.le_trans (clean.length_openMembers_instantiate_le b) ?_
    -- A compound that has become a set is short, if it was none before.
    by_cases several : 2 < (Concept.compound ps).parts.length
    · exact h _ he (keeps _ he several set)
    · exact Nat.le_trans (length_openMembers_le _) (by omega)

include hc ground in
/-- What is put in later makes no set of a sequence, if it does not when put in at once. -/
theorem KeepsOrder.instantiate {extra : Bindings} (keeps : KeepsOrder all c)
    (hb : b.AllValues Clean) (same : ∀ d ∈ c :: c.inside,
      (d.instantiate b).instantiate extra = d.instantiate all) :
    KeepsOrder extra (c.instantiate b) := by
  intro d hd several set
  rcases hc.of_mem_cons_inside_instantiate hd with
    ⟨name, hn, value, e, hd⟩ | ⟨word, rfl⟩ | ⟨ps, he, rfl⟩
  · have clean : d.Clean := (hb e).of_mem_cons_inside hd
    rwa [clean.instantiate_of_isGround ((ground name hn value e).of_mem_cons_inside hd)] at set
  · simp at several
  · have clean : Clean (.compound ps) := hc.of_mem_cons_inside he
    rw [clean.length_parts_instantiate] at several
    rw [same _ he] at set
    obtain ⟨members, rfl⟩ := clean.exists_of_isSet (keeps _ he several set)
    rw [clean.isSet_instantiate, instantiate_atom_of_not_variable (by decide)]
    rfl

end Instance

/-- A pattern is determinate if it is so with its variables renamed. -/
theorem IsDeterminate.of_instantiate (h : (c.instantiate b).IsDeterminate) (hc : c.Clean)
    (renames : Renames b c) : c.IsDeterminate := by
  intro d hd set
  have clean := hc.of_mem_cons_inside hd
  cases d with
  | atom => simp [isSet] at set
  | compound ps =>
    obtain ⟨members, rfl⟩ := clean.exists_of_isSet set
    have one := h _ (hc.instantiate_mem_cons_inside hd b) (by
      rw [clean.isSet_instantiate, instantiate_atom_of_not_variable (by decide)]
      rfl)
    rw [clean.length_openMembers_instantiate] at one
    rw [length_openMembers]
    refine Nat.le_trans (List.countP_mono_left fun p hp opened => ?_) one
    have part : p ∈ Concept.compound (.atom setMarker :: members) ::
        (Concept.compound (.atom setMarker :: members)).inside :=
      mem_cons_inside_of_mem (List.mem_cons_of_mem _ hp) (List.mem_cons_self ..)
    rw [mentionsVariable_iff] at opened ⊢
    exact ((renames.of_mem_cons_inside hd).of_mem_cons_inside part).not_isGround
      (clean.of_mem_cons_inside part) opened

end Concept

end ConceptSpace
