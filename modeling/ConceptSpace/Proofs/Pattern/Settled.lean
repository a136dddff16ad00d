import ConceptSpace.Proofs.Pattern.Reading

/-!
# Choices that are not taken back

The search for a fit tries the members of a set in any order until those of the pattern are paired,
but it does not come back to a set that it has left. Members without variables leave no choice, since
they take out themselves (`exists_inAnyOrder_append_eq`), nor does a single member besides them. If
several members have variables, the pairing that is found first may bind a variable to another
concept than one has in mind. A pattern is *settled* if this does no harm: a variable of such a set
occurs behind the set only if it occurs in front of it, too, where it has got its value.

A settled pattern is fitted to whatever it reads as (`Clean.keepsCourse`).
-/

namespace ConceptSpace

/-- Bindings on the way to others: the variables that have been passed are bound, and those that are
ahead are not bound to anything else than in the end. -/
structure Bindings.IsOnCourse (all : Bindings) (passed ahead : List String) (b : Bindings) :
    Prop where
  /-- The bound concepts are clean. -/
  clean : b.AllValues Concept.Clean
  /-- What has been passed is bound. -/
  bound : ∀ name ∈ passed, b[name]? ≠ none
  /-- What is ahead has its value if it has one. -/
  right : ∀ name ∈ ahead, b[name]? ≠ none → b[name]? = all[name]?

namespace Bindings.IsOnCourse

variable {all b b' : Bindings} {passed ahead names : List String}

theorem of_isPartOf (h : b.IsPartOf all) (hall : all.AllValues Concept.Clean)
    (ahead : List String) : IsOnCourse all [] ahead b where
  clean := h.allValues hall
  bound := by simp
  right name _ some := by
    obtain ⟨value, e⟩ := Option.ne_none_iff_exists'.mp some
    rw [e, h e]

/-- Bindings stay on course if the names that are bound besides get their values, as far as they are
still ahead. -/
theorem extend (h : IsOnCourse all passed (names ++ ahead) b) (extended : Extends names b b')
    (right : ∀ name ∈ names, name ∈ ahead → b'[name]? = all[name]?) :
    IsOnCourse all (passed ++ names) ahead b' where
  clean := extended.clean
  bound name hn := (extended.binds name).mpr <|
    (List.mem_append.mp hn).imp (h.bound name) id
  right name hn some := by
    by_cases new : name ∈ names
    · exact right name new hn
    · have old : b[name]? ≠ none := ((extended.binds name).mp some).resolve_right new
      rw [extended.getElem?_eq old]
      exact h.right name (List.mem_append_right _ hn) old

/-- Names that have been passed have their values, if they are ahead, too. -/
theorem eq_of_passed (h : IsOnCourse all passed ahead b) (extended : Extends names b b')
    {name : String} (hp : name ∈ passed) (ha : name ∈ ahead) : b'[name]? = all[name]? := by
  rw [extended.getElem?_eq (h.bound name hp)]
  exact h.right name ha (h.bound name hp)

end Bindings.IsOnCourse

namespace Concept

open Bindings (IsOnCourse)

variable {c p : Concept} {ps cs members : List Concept} {b all : Bindings}
  {passed ahead : List String}

/-! ## Settled patterns -/

/-- The members of a compound in which variables occur. -/
def openMembers (c : Concept) : List Concept :=
  c.parts.tail.filter (·.mentionsVariable)

/-- At most one member of a set has variables, or those of its variables that are ahead have been
passed. -/
def LeavesNoChoice (passed ahead : List String) (c : Concept) : Prop :=
  c.openMembers.length ≤ 1 ∨ ∀ name ∈ c.vars, name ∈ ahead → name ∈ passed

mutual

/-- The sets of a concept leave no choice that matters, where the variables that stand in front of
it and those behind it are given. -/
def IsSettledWithin (passed ahead : List String) : Concept → Prop
  | .atom _ => True
  | .compound parts =>
    (isSet (.compound parts) = true → LeavesNoChoice passed ahead (.compound parts)) ∧
      AreSettledWithin passed ahead parts

/-- The sets of several concepts in a row leave no choice that matters. -/
def AreSettledWithin (passed ahead : List String) : List Concept → Prop
  | [] => True
  | part :: more =>
    IsSettledWithin passed (more.flatMap vars ++ ahead) part ∧
      AreSettledWithin (passed ++ part.vars) ahead more

end

/-- Each set in a pattern has at most one member with variables, or its variables occur behind it
only if they occur in front of it, too. -/
def IsSettled (p : Concept) : Prop :=
  p.IsSettledWithin [] []

instance : Decidable (LeavesNoChoice passed ahead c) :=
  inferInstanceAs (Decidable (_ ∨ _))

mutual

/-- Whether the sets of a concept leave no choice that matters is decidable. -/
def decSettled (passed ahead : List String) :
    (c : Concept) → Decidable (IsSettledWithin passed ahead c)
  | .atom _ => .isTrue trivial
  | .compound parts =>
    have := decAllSettled passed ahead parts
    inferInstanceAs (Decidable (_ ∧ AreSettledWithin passed ahead parts))

/-- Whether the sets of several concepts leave no choice that matters is decidable. -/
def decAllSettled (passed ahead : List String) :
    (cs : List Concept) → Decidable (AreSettledWithin passed ahead cs)
  | [] => .isTrue trivial
  | part :: more =>
    have := decSettled passed (more.flatMap vars ++ ahead) part
    have := decAllSettled (passed ++ part.vars) ahead more
    inferInstanceAs (Decidable (IsSettledWithin passed _ part ∧ AreSettledWithin _ ahead more))

end

instance : DecidablePred IsSettled := decSettled [] []

theorem flatMap_vars_openMembers (cs : List Concept) :
    (cs.filter (·.mentionsVariable)).flatMap vars = cs.flatMap vars :=
  Sequence.flatMap_filter cs fun _ h => mentionsVariable_eq_false_iff.mp h

theorem AreSettledWithin.of_forall
    (h : ∀ c ∈ cs, ∀ passed ahead, c.IsSettledWithin passed ahead) :
    AreSettledWithin passed ahead cs := by
  induction cs generalizing passed with
  | nil => trivial
  | cons c cs ih => exact ⟨h c (by simp) _ _, ih fun d hd => h d (by simp [hd])⟩

/-- Members without variables do not matter. -/
theorem AreSettledWithin.filter (h : AreSettledWithin passed ahead cs) :
    AreSettledWithin passed ahead (cs.filter (·.mentionsVariable)) := by
  induction cs generalizing passed with
  | nil => exact h
  | cons c cs ih =>
    obtain ⟨first, rest⟩ := h
    by_cases opened : c.mentionsVariable = true
    · rw [List.filter_cons_of_pos opened]
      refine ⟨?_, ih rest⟩
      rwa [flatMap_vars_openMembers]
    · rw [List.filter_cons_of_neg opened]
      have ground : c.vars = [] := mentionsVariable_eq_false_iff.mp (by simpa using opened)
      rw [ground, List.append_nil] at rest
      exact ih rest

/-! ## Members without variables -/

/-- Without variables, a pattern fits itself and nothing else, and binds nothing. -/
theorem Clean.unify_eq_some_iff_of_isGround (hp : p.Clean) (ground : p.IsGround) (hc : c.Clean)
    (hb : b.AllValues Clean) {b' : Bindings} : unify p c b = some b' ↔ c = p ∧ b' = b := by
  have only : ∀ {d b'}, d.Clean → unify p d b = some b' → d = p ∧ b' = b := by
    intro d b' hd found
    have fits := hp.fitsSoundly hd hb found
    refine ⟨?_, (Bindings.eq_of_isPartOf fits.keeps fun name hn => ?_).symm⟩
    · rw [← fits.instantiates, hp.instantiate_of_isGround ground]
    · exact ((fits.binds name).mp hn).resolve_right (by rw [ground]; simp)
  refine ⟨only hc, ?_⟩
  rintro ⟨rfl, rfl⟩
  obtain ⟨b', found⟩ := hp.fitsWhereFree (by rw [ground]; exact .nil) hc hb
    (by rw [ground]; simp) (.refl c)
  rw [found, (only hc found).2]

theorem groundFirst_matchers (ps : List Concept) : Matcher.groundFirst (matchers ps) =
    (ps.filter (!·.mentionsVariable) ++ ps.filter (·.mentionsVariable)).map unify := by
  simp [Matcher.groundFirst, matchers_eq_map, List.partition_eq_filter_filter, List.filter_map,
    Function.comp_def]

theorem eq_of_readsAs_of_isGround (hp : p.Clean) (ground : p.IsGround) (hc : c.Clean)
    (h : ReadsAs all p c) : c = p :=
  h.covers.eq_of_isGround hp hc ground

/-- Of the concepts that some patterns read as, those without variables are themselves; the others
are read as the rest. -/
theorem exists_rest_of_forall₂ (hp : ∀ p ∈ ps, p.Clean) (hc : ∀ c ∈ cs, c.Clean)
    (h : List.Forall₂ (ReadsAs all) ps cs) : ∃ rest : List Concept,
      cs.Perm (ps.filter (!·.mentionsVariable) ++ rest) ∧
        List.Forall₂ (ReadsAs all) (ps.filter (·.mentionsVariable)) rest := by
  induction h with
  | nil => exact ⟨[], .nil, .nil⟩
  | @cons p c ps cs reads _ ih =>
    obtain ⟨rest, perm, related⟩ :=
      ih (fun q hq => hp q (by simp [hq])) (fun d hd => hc d (by simp [hd]))
    by_cases opened : p.mentionsVariable = true
    · refine ⟨c :: rest, ?_, ?_⟩
      · rw [List.filter_cons_of_neg (by simp [opened])]
        exact (perm.cons c).trans List.perm_middle.symm
      · rw [List.filter_cons_of_pos opened]
        exact .cons reads related
    · have none : p.mentionsVariable = false := by simpa using opened
      obtain rfl := eq_of_readsAs_of_isGround (hp p (by simp))
        (mentionsVariable_eq_false_iff.mp none) (hc c (by simp)) reads
      refine ⟨rest, ?_, ?_⟩
      · rw [List.filter_cons_of_pos (by simp [none])]
        exact perm.cons c
      · rwa [List.filter_cons_of_neg opened]

/-- Patterns without variables leave the members that are none of them to the others. -/
theorem exists_inAnyOrder_append_eq {gs rest : List Concept} (os : List Concept)
    (ground : ∀ g ∈ gs, g.Clean ∧ g.IsGround) (hb : b.AllValues Clean) (hc : ∀ c ∈ cs, c.Clean)
    (split : cs.Perm (gs ++ rest)) : ∃ left : List Concept, left.Perm rest ∧
      Matcher.inAnyOrder ((gs ++ os).map unify) cs b =
        Matcher.inAnyOrder (os.map unify) left b := by
  induction gs generalizing cs with
  | nil => exact ⟨cs, split, rfl⟩
  | cons g gs ih =>
    obtain ⟨clean, isGround⟩ := ground g (by simp)
    have onlyItself : ∀ {c : Concept} {b' : Bindings}, c.Clean →
        (unify g c b = some b' ↔ c = g ∧ b' = b) := fun hc =>
      clean.unify_eq_some_iff_of_isGround isGround hc hb
    have others : ∀ {c : Concept} {more : List Concept}, (c, more) ∈ Matcher.picks cs → c = g →
        ∃ left : List Concept, left.Perm rest ∧ Matcher.inAnyOrder ((gs ++ os).map unify) more b =
          Matcher.inAnyOrder (os.map unify) left b := by
      rintro c more picked rfl
      have taken := Matcher.perm_of_mem_picks picked
      exact ih (fun q hq => ground q (by simp [hq]))
        (fun d hd => hc d (taken.mem_iff.mpr (List.mem_cons_of_mem _ hd)))
        (List.Perm.cons_inv (taken.symm.trans split))
    cases found : Matcher.inAnyOrder ((g :: gs ++ os).map unify) cs b with
    | some b' =>
      -- Whatever has been found, the pattern has been left to itself.
      obtain ⟨⟨c, more⟩, picked, reached⟩ := List.exists_of_findSome?_eq_some found
      obtain ⟨b₁, first, further⟩ := Option.bind_eq_some_iff.mp reached
      have member : c ∈ cs := (Matcher.perm_of_mem_picks picked).mem_iff.mpr (by simp)
      obtain ⟨same, rfl⟩ := (onlyItself (hc c member)).mp first
      obtain ⟨left, perm, e⟩ := others picked same
      exact ⟨left, perm, further.symm.trans e⟩
    | none =>
      obtain ⟨more, picked⟩ := Matcher.exists_mem_picks (split.mem_iff.mpr (List.mem_cons_self ..))
      obtain ⟨left, perm, e⟩ := others picked rfl
      have failed := List.findSome?_eq_none_iff.mp found (g, more) picked
      simp only [(onlyItself clean).mpr ⟨rfl, rfl⟩, Option.bind_some] at failed
      exact ⟨left, perm, failed.symm.trans e⟩

/-! ## Fitting -/

/-- The pattern is fitted to what it reads as, and the bindings stay on course. -/
def KeepsCourse (all : Bindings) (passed ahead : List String) (p : Concept) : Prop :=
  ∀ ⦃c : Concept⦄ ⦃b : Bindings⦄, c.Clean → ReadsAs all p c →
    IsOnCourse all passed (p.vars ++ ahead) b →
      ∃ b', unify p c b = some b' ∧ IsOnCourse all (passed ++ p.vars) ahead b'

/-- Patterns that keep the course wherever they are settled. -/
def KeepCourse (all : Bindings) (ps : List Concept) : Prop :=
  ∀ p ∈ ps, p.Clean ∧ ∀ passed ahead, p.IsSettledWithin passed ahead →
    KeepsCourse all passed ahead p

theorem KeepCourse.tail (h : KeepCourse all (p :: ps)) : KeepCourse all ps :=
  fun q hq => h q (List.mem_cons_of_mem p hq)

/-- Patterns that are still to be fitted, where the bindings are on course. When all of them are
fitted, the variables of `whole` have been passed. -/
def AreUnderway (all : Bindings) (whole ahead : List String) (ps : List Concept) (b : Bindings) :
    Prop :=
  ∃ passed, passed ++ ps.flatMap vars = whole ∧ KeepCourse all ps ∧
    AreSettledWithin passed ahead ps ∧ IsOnCourse all passed (ps.flatMap vars ++ ahead) b

/-- The first of the patterns is fitted, and the others are still underway. -/
theorem exists_unify_of_areUnderway {whole : List String} ⦃p c : Concept⦄ ⦃ps : List Concept⦄
    ⦃b : Bindings⦄ (hc : c.Clean ∧ ReadsAs all p c)
    (h : AreUnderway all whole ahead (p :: ps) b) :
    ∃ b', unify p c b = some b' ∧ AreUnderway all whole ahead ps b' := by
  obtain ⟨passed, rfl, keep, ⟨first, rest⟩, course⟩ := h
  rw [List.flatMap_cons, List.append_assoc] at course
  obtain ⟨b', fitted, course⟩ := (keep p (by simp)).2 _ _ first hc.1 hc.2 course
  exact ⟨b', fitted, passed ++ p.vars, by simp, keep.tail, rest, course⟩

theorem AreUnderway.isOnCourse {whole : List String} (h : AreUnderway all whole ahead [] b) :
    IsOnCourse all whole ahead b := by
  obtain ⟨passed, rfl, -, -, course⟩ := h
  simpa using course

/-- The members of a set that have variables are fitted in any order, and the bindings stay on
course: there is one of them at most, or nothing depends on the choice. -/
theorem exists_course_of_openMembers {os ds : List Concept} (keep : KeepCourse all os)
    (settled : AreSettledWithin passed ahead os)
    (noChoice : os.length ≤ 1 ∨ ∀ name ∈ os.flatMap vars, name ∈ ahead → name ∈ passed)
    (hc : ∀ c ∈ cs, c.Clean) (h : List.Forall₂ (ReadsAs all) os ds) (perm : ds.Perm cs)
    (course : IsOnCourse all passed (os.flatMap vars ++ ahead) b) :
    ∃ b', Matcher.inAnyOrder (os.map unify) cs b = some b' ∧
      IsOnCourse all (passed ++ os.flatMap vars) ahead b' := by
  rcases noChoice with one | free
  · match os, one, h with
    | [], _, _ => exact ⟨b, rfl, by simpa using course⟩
    | [o], _, .cons (b := d) reads .nil =>
      obtain rfl := List.perm_singleton.mp perm.symm
      rw [List.flatMap_singleton] at course ⊢
      obtain ⟨b', found, course⟩ := (keep o (by simp)).2 _ _ (by simpa using settled.1)
        (hc d (by simp)) reads course
      exact ⟨b', by simp [Matcher.inAnyOrder, Matcher.picks, found], course⟩
  · have reads : List.Forall₂ (fun p c => c.Clean ∧ ReadsAs all p c) os ds :=
      Sequence.forall₂_imp_of_mem (fun _ _ d hd reads => ⟨hc d (perm.mem_iff.mp hd), reads⟩) h
    have underway : AreUnderway all (passed ++ os.flatMap vars) ahead os b :=
      ⟨passed, rfl, keep, settled, course⟩
    obtain ⟨b', found⟩ := exists_inAnyOrder exists_unify_of_areUnderway reads perm underway
    obtain ⟨extended, -⟩ := inAnyOrder_sound (fun o ho => (keep o ho).1.fitsSoundly) hc course.clean
      (h.length_eq.trans perm.length_eq) found
    exact ⟨b', found, course.extend extended fun name hn ha =>
      course.eq_of_passed extended (free name hn ha) (List.mem_append_right _ ha)⟩

/-- The members of a set are fitted in any order, those without variables first. -/
theorem exists_course_of_members {ds : List Concept} (keep : KeepCourse all members)
    (settled : AreSettledWithin passed ahead members)
    (noChoice : (members.filter (·.mentionsVariable)).length ≤ 1 ∨
      ∀ name ∈ members.flatMap vars, name ∈ ahead → name ∈ passed)
    (hc : ∀ c ∈ cs, c.Clean) (h : List.Forall₂ (ReadsAs all) members ds) (perm : ds.Perm cs)
    (course : IsOnCourse all passed (members.flatMap vars ++ ahead) b) :
    ∃ b', Matcher.inAnyOrder (Matcher.groundFirst (matchers members)) cs b = some b' ∧
      IsOnCourse all (passed ++ members.flatMap vars) ahead b' := by
  obtain ⟨rest, split, opened⟩ := exists_rest_of_forall₂ (fun q hq => (keep q hq).1)
    (fun d hd => hc d (perm.mem_iff.mp hd)) h
  have ground : ∀ g ∈ members.filter (!·.mentionsVariable), g.Clean ∧ g.IsGround := by
    intro g hg
    obtain ⟨hg, none⟩ := List.mem_filter.mp hg
    exact ⟨(keep g hg).1, mentionsVariable_eq_false_iff.mp (by simpa using none)⟩
  obtain ⟨left, same, e⟩ := exists_inAnyOrder_append_eq (members.filter (·.mentionsVariable))
    ground course.clean hc (perm.symm.trans split)
  rw [groundFirst_matchers, e]
  rw [← flatMap_vars_openMembers] at noChoice course ⊢
  refine exists_course_of_openMembers (fun o ho => keep o (List.mem_filter.mp ho).1)
    settled.filter noChoice (fun d hd => hc d ?_) opened same.symm course
  exact (perm.symm.trans split).mem_iff.mpr (List.mem_append_right _ (same.mem_iff.mp hd))

/-- Where a clean pattern is settled, it is fitted to what it reads as, and the bindings stay on
course. -/
theorem Clean.keepsCourse (hp : p.Clean) (settled : p.IsSettledWithin passed ahead) :
    KeepsCourse all passed ahead p := by
  induction p generalizing passed ahead with
  | atom word =>
    intro c b hc reads course
    cases reads with
    | bound hv e =>
      have vars : (Concept.atom word).vars = [word] := by simp [vars_atom, hv]
      rw [vars] at course ⊢
      obtain ⟨b', found⟩ : ∃ b', b.bind? word c = some b' := by
        unfold Bindings.bind?
        cases bound : b[word]? with
        | none => exact ⟨_, rfl⟩
        | some value =>
          have same := (course.right word (by simp) (by simp [bound])).symm.trans bound
          obtain rfl : c = value := Option.some.inj (e.symm.trans same)
          exact ⟨b, by simp [Concept.same]⟩
      obtain ⟨extended, bound⟩ := Bindings.extends_of_bind? hc course.clean found
      refine ⟨b', by simp [unify, hv, found], course.extend extended fun name hn _ => ?_⟩
      rw [List.mem_singleton.mp hn, bound, e]
    | word hv =>
      have vars : (Concept.atom word).vars = [] := by simp [vars_atom, hv]
      rw [vars] at course ⊢
      exact ⟨b, by simp [unify, hv], by simpa using course⟩
  | compound ps ih =>
    intro c b hc reads course
    obtain ⟨choice, parts⟩ := settled
    have keep : KeepCourse all ps := fun q hq =>
      ⟨hp.of_mem hq, fun _ _ within => ih q hq (hp.of_mem hq) within⟩
    rw [vars_compound] at course ⊢
    by_cases set : isSet (.compound ps) = true
    · obtain ⟨members, rfl⟩ := hp.exists_of_isSet set
      obtain ⟨ds, cs, rfl, related, perm⟩ := readsAs_set_iff.mp reads
      have length : (Concept.atom setMarker :: members).length =
          (Concept.atom setMarker :: cs).length := by
        simp [related.length_eq, perm.length_eq]
      have sets : isSet (.compound (.atom setMarker :: cs)) = true := rfl
      have marker : (Concept.atom setMarker).vars = [] := by decide
      have noChoice := choice set
      rw [LeavesNoChoice, vars_compound] at noChoice
      obtain ⟨-, parts⟩ := parts
      rw [List.flatMap_cons, marker, List.nil_append] at course noChoice ⊢
      rw [marker, List.append_nil] at parts
      simp only [unify, length, set, sets, matchers, List.tail_cons, ne_eq, not_true_eq_false,
        if_false, Bool.and_self, if_true]
      exact exists_course_of_members keep.tail parts noChoice
        (fun d hd => hc.of_mem (List.mem_cons_of_mem _ hd)) related perm course
    · have noSet : isSet (.compound ps) = false := by simpa using set
      obtain ⟨cs, rfl, related⟩ := (hp.readsAs_sequence_iff noSet).mp reads
      simp only [unify, matchers_eq_map, List.map_map, related.length_eq, noSet, Bool.false_and,
        ne_eq, not_true_eq_false, if_false, Bool.false_eq_true, Function.comp_def]
      have reads : List.Forall₂ (fun p c => c.Clean ∧ ReadsAs all p c) ps cs :=
        Sequence.forall₂_imp_of_mem (fun _ _ d hd reads => ⟨hc.of_mem hd, reads⟩) related
      have underway : AreUnderway all (passed ++ ps.flatMap vars) ahead ps b :=
        ⟨passed, rfl, keep, parts, course⟩
      obtain ⟨b', found, done⟩ := exists_inOrder exists_unify_of_areUnderway reads underway
      exact ⟨b', found, done.isOnCourse⟩

end Concept

end ConceptSpace
