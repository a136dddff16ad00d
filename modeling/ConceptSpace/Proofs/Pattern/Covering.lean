import Mathlib.Data.List.Nodup
import ConceptSpace.Proofs.Pattern.Canonical

/-!
# Patterns that cover concepts

A pattern *covers* a concept if the concept has its form: variables aside, it is the concept word by
word, where the members of a set may be paired in any order. What a pattern is fitted to it covers
(`Clean.covers_of_unify`), and a pattern in which no variable occurs twice can be fitted to whatever
it covers (`Clean.fitsWhereFree`).
-/

namespace ConceptSpace.Concept

mutual

/-- A pattern has the form of a concept. -/
inductive Covers : Concept → Concept → Prop where
  /-- A variable covers everything. -/
  | anything {name : String} (h : startsWith '$' name = true) (c : Concept) : Covers (.atom name) c
  /-- A word covers itself. -/
  | word (word : String) : Covers (.atom word) (.atom word)
  /-- A compound is covered part by part. -/
  | inOrder {ps cs : List Concept} (parts : CoversAll ps cs) : Covers (.compound ps) (.compound cs)
  /-- The members of a set are covered in some order. -/
  | inAnyOrder {ps ds cs : List Concept} (members : CoversAll ps ds) (perm : ds.Perm cs) :
    Covers (.compound (.atom setMarker :: ps)) (.compound (.atom setMarker :: cs))

/-- Patterns have the forms of concepts, one by one. -/
inductive CoversAll : List Concept → List Concept → Prop where
  | nil : CoversAll [] []
  | cons {p c : Concept} {ps cs : List Concept} (first : Covers p c) (more : CoversAll ps cs) :
    CoversAll (p :: ps) (c :: cs)

end

theorem coversAll_iff {ps cs : List Concept} : CoversAll ps cs ↔ List.Forall₂ Covers ps cs := by
  constructor
  · intro h
    induction ps generalizing cs with
    | nil =>
      cases h
      exact .nil
    | cons p ps ih =>
      cases h with
      | cons first more => exact .cons first (ih more)
  · intro h
    induction h with
    | nil => exact .nil
    | cons first _ ih => exact .cons first ih

variable {p c : Concept} {ps cs : List Concept} {b b' : Bindings}

theorem Covers.refl (c : Concept) : Covers c c := by
  induction c with
  | atom word => exact .word word
  | compound ps ih => exact .inOrder (coversAll_iff.mpr (List.forall₂_same.mpr ih))

/-- What a compound covers are the concepts covered by its parts, where those of a set may stand in
another order. -/
theorem covers_compound_iff : Covers (.compound ps) c ↔
    (∃ cs, c = .compound cs ∧ List.Forall₂ Covers ps cs) ∨
      ∃ ms ds cs, ps = .atom setMarker :: ms ∧ c = .compound (.atom setMarker :: cs) ∧
        List.Forall₂ Covers ms ds ∧ ds.Perm cs := by
  constructor
  · intro h
    cases h with
    | inOrder parts => exact .inl ⟨_, rfl, coversAll_iff.mp parts⟩
    | inAnyOrder members perm => exact .inr ⟨_, _, _, rfl, rfl, coversAll_iff.mp members, perm⟩
  · rintro (⟨cs, rfl, parts⟩ | ⟨ms, ds, cs, rfl, rfl, members, perm⟩)
    · exact .inOrder (coversAll_iff.mpr parts)
    · exact .inAnyOrder (coversAll_iff.mpr members) perm

theorem covers_marker_iff : Covers (.atom setMarker) c ↔ c = .atom setMarker := by
  constructor
  · intro h
    cases h with
    | anything hv => exact absurd hv (by decide)
    | word => rfl
  · rintro rfl
    exact .word _

/-- The members of a set that is covered by a set are covered in some order. -/
theorem exists_of_covers_set (h : Covers (.compound (.atom setMarker :: ps)) c) :
    ∃ ds cs, c = .compound (.atom setMarker :: cs) ∧ List.Forall₂ Covers ps ds ∧ ds.Perm cs := by
  rcases covers_compound_iff.mp h with ⟨cs, rfl, parts⟩ | ⟨ms, ds, cs, e, rfl, members, perm⟩
  · cases parts with
    | cons first parts =>
      obtain rfl := covers_marker_iff.mp first
      exact ⟨_, _, rfl, parts, .refl _⟩
  · obtain rfl : ps = ms := (List.cons.inj e).2
    exact ⟨ds, cs, rfl, members, perm⟩

/-- A compound covers what another one covers if its parts do; those of a set may do so in another
order. -/
theorem Covers.of_parts {head q : Concept} {members placed : List Concept}
    (h : Covers (.compound (head :: members)) c) (coversHead : ∀ d, Covers head d → Covers q d)
    (marker : head = .atom setMarker → q.key = setMarker)
    (inOrder : head ≠ .atom setMarker → ∀ ds, List.Forall₂ Covers members ds →
      List.Forall₂ Covers placed ds)
    (inAnyOrder : ∀ ds, List.Forall₂ Covers members ds →
      ∃ es : List Concept, es.Perm ds ∧ List.Forall₂ Covers placed es) :
    Covers (.compound (q :: placed)) c := by
  by_cases set : head = .atom setMarker
  · subst set
    obtain ⟨ds, cs, rfl, related, placing⟩ := exists_of_covers_set h
    obtain ⟨es, among, covered⟩ := inAnyOrder ds related
    have isMarker : q = .atom setMarker := by
      cases coversHead _ (.word setMarker) with
      | anything => exact congrArg atom (marker rfl)
      | word => rfl
    rw [isMarker]
    exact .inAnyOrder (coversAll_iff.mpr covered) (among.trans placing)
  · rcases covers_compound_iff.mp h with ⟨cs, rfl, related⟩ | ⟨_, _, _, e, -⟩
    · cases related with
      | cons first rest =>
        exact .inOrder (coversAll_iff.mpr (.cons (coversHead _ first) (inOrder set _ rest)))
    · exact absurd (List.cons.inj e).1 set

/-- Without variables, a pattern covers nothing but itself. -/
theorem Covers.eq_of_isGround (h : Covers p c) (hp : p.Clean) (hc : c.Clean) (ground : p.IsGround) :
    c = p := by
  induction p generalizing c with
  | atom word =>
    cases h with
    | anything hv => simp [IsGround, vars_atom, hv] at ground
    | word => rfl
  | compound ps ih =>
    have same : ∀ {ms ds : List Concept}, (∀ q ∈ ms, q ∈ ps) → (∀ d ∈ ds, d.Clean) →
        List.Forall₂ Covers ms ds → ms = ds := by
      intro ms ds among clean covered
      rw [← List.forall₂_eq_eq_eq]
      refine Sequence.forall₂_imp_of_mem (fun q hq d hd first => ?_) covered
      have hq := among q hq
      exact (ih q hq first (hp.of_mem hq) (clean d hd) (isGround_compound.mp ground q hq)).symm
    rcases covers_compound_iff.mp h with ⟨cs, rfl, parts⟩ | ⟨ms, ds, cs, rfl, rfl, members, perm⟩
    · rw [same (fun _ hq => hq) (fun d hd => hc.of_mem hd) parts]
    · have clean : ∀ d ∈ ds, d.Clean := fun d hd =>
        hc.of_mem (List.mem_cons_of_mem _ (perm.mem_iff.mp hd))
      obtain rfl := same (fun q hq => List.mem_cons_of_mem _ hq) clean members
      rw [← node_of_isArranged hp.isArranged]
      exact (node_setMarker_of_perm (fun d hd => hc.of_mem (List.mem_cons_of_mem _ hd))
        hc.isArranged perm).symm

/-! ## Fitting and covering -/

theorem forall₂_of_inOrder (length : ps.length = cs.length)
    (h : Matcher.inOrder (ps.map unify) cs b = some b') :
    List.Forall₂ (fun p c => ∃ b b', unify p c b = some b') ps cs := by
  induction ps generalizing cs b with
  | nil =>
    obtain rfl : cs = [] := by simpa using length.symm
    exact .nil
  | cons p ps ih =>
    match cs, length with
    | c :: cs, length =>
      obtain ⟨b₁, first, rest⟩ := Option.bind_eq_some_iff.mp h
      exact .cons ⟨b, b₁, first⟩ (ih (by simpa using length) rest)

theorem exists_forall₂_of_inAnyOrder (length : ps.length = cs.length)
    (h : Matcher.inAnyOrder (ps.map unify) cs b = some b') :
    ∃ ds : List Concept, ds.Perm cs ∧
      List.Forall₂ (fun p c => ∃ b b', unify p c b = some b') ps ds := by
  induction ps generalizing cs b with
  | nil =>
    obtain rfl : cs = [] := by simpa using length.symm
    exact ⟨[], .nil, .nil⟩
  | cons p ps ih =>
    obtain ⟨⟨c, rest⟩, picked, found⟩ := List.exists_of_findSome?_eq_some h
    have split := Matcher.perm_of_mem_picks picked
    obtain ⟨b₁, first, others⟩ := Option.bind_eq_some_iff.mp found
    obtain ⟨ds, perm, related⟩ := ih (by simpa [split.length_eq] using length) others
    exact ⟨c :: ds, (perm.cons c).trans split.symm, .cons ⟨b, b₁, first⟩ related⟩

/-- A pattern covers what it is fitted to. -/
theorem Clean.covers_of_unify (hp : p.Clean) (hc : c.Clean) (h : unify p c b = some b') :
    Covers p c := by
  induction p generalizing c b b' with
  | atom word =>
    unfold unify at h
    by_cases hv : startsWith '$' word = true
    · exact .anything hv c
    · rw [if_neg hv] at h
      split at h
      case h_1 found =>
        split at h
        case isTrue same => exact same ▸ .word word
        case isFalse => simp at h
      case h_2 => simp at h
  | compound ps ih =>
    cases c with
    | atom => simp [unify] at h
    | compound cs =>
      simp only [unify] at h
      split at h
      case isTrue => simp at h
      case isFalse length =>
        have length : ps.length = cs.length := by simpa using length
        have covered : ∀ {q d : Concept}, q ∈ ps → d ∈ cs → (∃ b b', unify q d b = some b') →
            Covers q d := by
          rintro q d hq hd ⟨_, _, found⟩
          exact ih q hq (hp.of_mem hq) (hc.of_mem hd) found
        split at h
        case isTrue sets =>
          simp only [Bool.and_eq_true] at sets
          obtain ⟨members, rfl⟩ := hp.exists_of_isSet sets.1
          obtain ⟨placed, rfl⟩ := hc.exists_of_isSet sets.2
          -- The ground members are fitted first, and each in turn to some member that is left.
          obtain ⟨ordered, perm, e⟩ := Matcher.exists_groundFirst_eq members
          simp only [matchers, List.tail_cons, e] at h
          obtain ⟨ds, perm', related⟩ :=
            exists_forall₂_of_inAnyOrder (by simpa [perm.length_eq] using length) h
          obtain ⟨es, perm'', related⟩ := Sequence.exists_forall₂_of_perm related perm.symm
          refine .inAnyOrder (coversAll_iff.mpr ?_) (perm''.trans perm')
          refine Sequence.forall₂_imp_of_mem (fun q hq d hd => ?_) related
          have hd := (perm''.trans perm').mem_iff.mp hd
          exact covered (List.mem_cons_of_mem _ hq) (List.mem_cons_of_mem _ hd)
        case isFalse =>
          rw [matchers_eq_map, List.map_map] at h
          refine .inOrder (coversAll_iff.mpr ?_)
          exact Sequence.forall₂_imp_of_mem (fun q hq d hd => covered hq hd)
            (forall₂_of_inOrder length h)

/-! ## Patterns in which no variable occurs twice -/

/-- The pattern can be fitted to whatever it covers, if none of its variables is bound. -/
def FitsWhereFree (p : Concept) : Prop :=
  ∀ ⦃c : Concept⦄ ⦃b : Bindings⦄, c.Clean → b.AllValues Clean →
    (∀ name ∈ p.vars, b[name]? = none) → Covers p c → ∃ b', unify p c b = some b'

theorem Fits.free {b₁ : Bindings} {names : List String} (fits : Fits p c b b₁)
    (once : (p.vars ++ names).Nodup) (free : ∀ name ∈ names, b[name]? = none) :
    ∀ name ∈ names, b₁[name]? = none := by
  intro name hn
  by_contra bound
  rcases (fits.binds name).mp bound with old | own
  · exact old (free name hn)
  · exact (List.nodup_append.mp once).2.2 name own name hn rfl

/-- Patterns that are still to be fitted, where no variable occurs twice or is bound. -/
structure AreFree (ps : List Concept) (b : Bindings) : Prop where
  /-- Each of the patterns can be fitted. -/
  fit : ∀ p ∈ ps, p.Clean ∧ p.FitsWhereFree
  /-- No variable occurs twice. -/
  once : (ps.flatMap vars).Nodup
  /-- The bound concepts are clean. -/
  clean : b.AllValues Clean
  /-- No variable is bound. -/
  free : ∀ name ∈ ps.flatMap vars, b[name]? = none

/-- The first of the patterns is fitted, and leaves the variables of the others free. -/
theorem exists_unify_of_areFree ⦃p c : Concept⦄ ⦃ps : List Concept⦄ ⦃b : Bindings⦄
    (hc : c.Clean ∧ Covers p c) (h : AreFree (p :: ps) b) :
    ∃ b', unify p c b = some b' ∧ AreFree ps b' := by
  obtain ⟨clean, fit⟩ := h.fit p (by simp)
  have once := h.once
  have free := h.free
  rw [List.flatMap_cons] at once free
  obtain ⟨b', found⟩ := fit hc.1 h.clean (fun name hn => free name (by simp [hn])) hc.2
  have fits := clean.fitsSoundly hc.1 h.clean found
  exact ⟨b', found, fun q hq => h.fit q (by simp [hq]), (List.nodup_append.mp once).2.1, fits.clean,
    fits.free once fun name hn => free name (List.mem_append_right _ hn)⟩

/-- A pattern in which no variable occurs twice fits whatever it covers. -/
theorem Clean.fitsWhereFree (hp : p.Clean) (once : p.vars.Nodup) : p.FitsWhereFree := by
  induction p with
  | atom word =>
    intro c b hc hb free covers
    cases covers with
    | anything hv =>
      have unbound : b[word]? = none := free word (by simp [vars_atom, hv])
      exact ⟨b.insert word c, by simp [unify, hv, Bindings.bind?, unbound]⟩
    | word =>
      by_cases hv : startsWith '$' word = true
      · have unbound : b[word]? = none := free word (by simp [vars_atom, hv])
        exact ⟨b.insert word (.atom word), by simp [unify, hv, Bindings.bind?, unbound]⟩
      · exact ⟨b, by simp [unify, hv]⟩
  | compound ps ih =>
    intro c b hc hb free covers
    rw [vars_compound] at once free
    have parts : ∀ q ∈ ps, q.Clean ∧ q.FitsWhereFree := fun q hq =>
      ⟨hp.of_mem hq, ih q hq (hp.of_mem hq) ((List.nodup_flatMap.mp once).1 q hq)⟩
    by_cases set : isSet (.compound ps) = true ∧ c.isSet = true
    · obtain ⟨members, rfl⟩ := hp.exists_of_isSet set.1
      obtain ⟨ds, cs, rfl, related, perm⟩ := exists_of_covers_set covers
      obtain ⟨ordered, order, e⟩ := Matcher.exists_groundFirst_eq members
      obtain ⟨es, perm', related⟩ := Sequence.exists_forall₂_of_perm related order
      have vars : (ordered.flatMap vars).Perm ((Concept.atom setMarker :: members).flatMap vars) :=
        order.flatMap_right _
      have start : AreFree ordered b :=
        ⟨fun q hq => parts q (List.mem_cons_of_mem _ (order.mem_iff.mp hq)), vars.nodup_iff.mpr once,
          hb, fun name hn => free name (vars.mem_iff.mp hn)⟩
      obtain ⟨b', found⟩ := exists_inAnyOrder exists_unify_of_areFree
        (Sequence.forall₂_imp_of_mem (fun _ _ d hd covers =>
          ⟨hc.of_mem (List.mem_cons_of_mem _ ((perm'.trans perm).mem_iff.mp hd)), covers⟩) related)
        (perm'.trans perm) start
      have length : members.length = cs.length := by
        rw [← order.length_eq, related.length_eq, (perm'.trans perm).length_eq]
      refine ⟨b', ?_⟩
      simp [unify, matchers, length, set, e, found]
    · rcases covers_compound_iff.mp covers with ⟨cs, rfl, related⟩ | ⟨ms, ds, cs, rfl, rfl, -, -⟩
      · obtain ⟨b', found, -⟩ := exists_inOrder exists_unify_of_areFree
          (Sequence.forall₂_imp_of_mem (fun _ _ d hd covers => ⟨hc.of_mem hd, covers⟩) related)
          ⟨parts, once, hb, free⟩
        have noSets : (isSet (.compound ps) && isSet (.compound cs)) = false := by
          simpa using set
        refine ⟨b', ?_⟩
        simp only [unify, related.length_eq, noSets, matchers_eq_map, List.map_map]
        simpa [Function.comp_def] using found
      · exact absurd ⟨rfl, rfl⟩ set

end ConceptSpace.Concept
