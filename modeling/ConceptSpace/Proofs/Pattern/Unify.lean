import ConceptSpace.Pattern.Unify
import ConceptSpace.Proofs.Pattern.Instance

/-!
# Unification finds instances

Bindings under which a clean pattern fits a clean concept make the pattern this concept, sets
included (`Clean.fits_of_match?`). Conversely a pattern without sets fits each of its instances,
under bindings that the instance was made with (`Clean.exists_unify_instantiate`).
-/

namespace ConceptSpace

namespace Bindings

/-- Clean bindings that keep what was bound before and bind some names besides. -/
structure Extends (names : List String) (b extended : Bindings) : Prop where
  /-- What was bound before stays. -/
  keeps : b.IsPartOf extended
  /-- Nothing else but the names is bound, and each of them is. -/
  binds : ∀ name : String, extended[name]? ≠ none ↔ b[name]? ≠ none ∨ name ∈ names
  /-- The bound concepts are clean. -/
  clean : extended.AllValues Concept.Clean

namespace Extends

variable {b c d : Bindings} {names more : List String}

theorem refl (h : b.AllValues Concept.Clean) : b.Extends [] b :=
  ⟨.refl b, by simp, h⟩

theorem trans (h : Extends names b c) (h' : Extends more c d) : Extends (names ++ more) b d where
  keeps := h.keeps.trans h'.keeps
  binds name := by rw [h'.binds, h.binds, List.mem_append, or_assoc]
  clean := h'.clean

theorem perm (h : Extends names b c) (hp : names.Perm more) : Extends more b c where
  keeps := h.keeps
  binds name := by rw [h.binds, hp.mem_iff]
  clean := h.clean

/-- Starting from nothing, just the names are bound. -/
theorem ne_none_iff (h : Extends names ∅ b) {name : String} : b[name]? ≠ none ↔ name ∈ names := by
  rw [h.binds]
  simp

/-- Names that are bound keep their values. -/
theorem getElem?_eq (h : Extends names b d) {name : String} (bound : b[name]? ≠ none) :
    d[name]? = b[name]? := by
  obtain ⟨value, e⟩ := Option.ne_none_iff_exists'.mp bound
  rw [e, h.keeps e]

end Extends

theorem extends_of_bind? {b b' : Bindings} {name : String} {value : Concept} (clean : value.Clean)
    (hb : b.AllValues Concept.Clean) (h : b.bind? name value = some b') :
    Extends [name] b b' ∧ b'[name]? = some value := by
  unfold bind? at h
  split at h
  case h_1 free =>
    obtain rfl := Option.some.inj h
    have lookup : ∀ other : String, (b.insert name value)[other]? =
        if name = other then some value else b[other]? := by
      simp [Std.ExtTreeMap.getElem?_insert]
    refine ⟨⟨fun other v hv => ?_, fun other => ?_, fun other v hv => ?_⟩, by simp⟩
    · rw [lookup, if_neg (by rintro rfl; simp [free] at hv), hv]
    · by_cases e : name = other
      · simp [e]
      · simp [lookup, e, Ne.symm e]
    · rw [lookup] at hv
      split at hv
      · exact Option.some.inj hv ▸ clean
      · exact hb hv
  case h_2 bound e =>
    split at h
    case isFalse => simp at h
    case isTrue hs =>
      obtain rfl := Option.some.inj h
      have : bound = value := ((hb e).key_inj clean).mp (by simpa [Concept.same] using hs)
      subst this
      refine ⟨⟨.refl b, fun other => ⟨.inl, ?_⟩, hb⟩, e⟩
      rintro (ho | ho)
      · exact ho
      · obtain rfl : other = name := by simpa using ho
        simp [e]

theorem AllValues.insert {P : Concept → Prop} {b : Bindings} {name : String} {value : Concept}
    (hb : b.AllValues P) (hv : P value) : AllValues P (b.insert name value) := by
  intro other v e
  rw [Std.ExtTreeMap.getElem?_insert] at e
  split at e
  · exact Option.some.inj e ▸ hv
  · exact hb e

theorem AllValues.bind? {P : Concept → Prop} {b b' : Bindings} {name : String} {value : Concept}
    (hb : b.AllValues P) (hv : P value) (h : b.bind? name value = some b') : b'.AllValues P := by
  unfold Bindings.bind? at h
  split at h
  · exact Option.some.inj h ▸ hb.insert hv
  · split at h
    · exact Option.some.inj h ▸ hb
    · cases h

/-- Binding a name as larger bindings do succeeds and stays within them. -/
theorem exists_bind? {b all : Bindings} {name : String} {value : Concept} (hb : b.IsPartOf all)
    (e : all[name]? = some value) : ∃ b', b.bind? name value = some b' ∧ b'.IsPartOf all := by
  unfold bind?
  split
  case h_1 free =>
    refine ⟨_, rfl, fun other v hv => ?_⟩
    rw [Std.ExtTreeMap.getElem?_insert] at hv
    split at hv
    case isTrue same =>
      obtain rfl := Std.LawfulEqCmp.eq_of_compare same
      exact e.trans hv
    case isFalse => exact hb hv
  case h_2 bound hbound =>
    obtain rfl : bound = value := Option.some.inj ((hb hbound).symm.trans e)
    exact ⟨b, by simp [Concept.same], hb⟩

end Bindings

namespace Matcher

variable {α : Type}

/-- Picking an element splits the list. -/
theorem perm_of_mem_picks {l : List α} {a : α} {rest : List α} (h : (a, rest) ∈ picks l) :
    l.Perm (a :: rest) := by
  induction l generalizing a rest with
  | nil => simp [picks] at h
  | cons b l ih =>
    rcases List.mem_cons.mp h with h | h
    · obtain ⟨rfl, rfl⟩ := Prod.mk.inj h
      exact .refl _
    · obtain ⟨⟨c, more⟩, hm, e⟩ := List.mem_map.mp h
      obtain ⟨rfl, rfl⟩ := Prod.mk.inj e
      exact ((ih hm).cons b).trans (.swap c b more)

/-- Each element can be picked. -/
theorem exists_mem_picks {l : List α} {a : α} (h : a ∈ l) : ∃ rest, (a, rest) ∈ picks l := by
  induction l with
  | nil => simp at h
  | cons b l ih =>
    rcases List.mem_cons.mp h with rfl | h
    · exact ⟨l, by simp [picks]⟩
    · obtain ⟨rest, picked⟩ := ih h
      exact ⟨b :: rest, by simp [picks, picked]⟩

/-- The matchers of set members are those of the members in some order. -/
theorem exists_groundFirst_eq (ps : List Concept) :
    ∃ qs : List Concept, qs.Perm ps ∧ groundFirst (Concept.matchers ps) = qs.map Concept.unify := by
  obtain ⟨opened, ground, e⟩ : ∃ opened ground,
      ps.partition (·.mentionsVariable) = (opened, ground) := ⟨_, _, rfl⟩
  refine ⟨ground ++ opened, ?_, ?_⟩
  · rw [List.partition_eq_filter_filter] at e
    obtain ⟨rfl, rfl⟩ := Prod.mk.inj e
    exact List.perm_append_comm.trans (List.filter_append_perm _ ps)
  · rw [List.partition_eq_filter_filter] at e
    obtain ⟨rfl, rfl⟩ := Prod.mk.inj e
    simp [groundFirst, Concept.matchers_eq_map, List.partition_eq_filter_filter, List.filter_map,
      Function.comp_def]

end Matcher

namespace Concept

open Bindings (Extends)

/-! ## Soundness -/

/-- The bindings extend others just by the variables of a pattern, and make the pattern a given
concept. -/
structure Fits (p c : Concept) (b extended : Bindings) : Prop extends
    Extends p.vars b extended where
  /-- The pattern has become the concept. -/
  instantiates : p.instantiate extended = c

/-- Fitting the pattern to clean concepts makes it these concepts. -/
def FitsSoundly (p : Concept) : Prop :=
  ∀ ⦃c : Concept⦄ ⦃b b' : Bindings⦄, c.Clean → b.AllValues Clean → unify p c b = some b' →
    Fits p c b b'

/-- What fits stays as it is when more names are bound. -/
theorem Fits.instantiate_eq {p c : Concept} {b b' b'' : Bindings} {names : List String}
    (h : Fits p c b b') (h' : Extends names b' b'') : p.instantiate b'' = c := by
  rw [← h.instantiates]
  refine instantiate_congr fun name hn => ?_
  exact h'.getElem?_eq ((h.binds name).mpr (.inr hn))

/-- Patterns fitted in order become the concepts at their places. -/
theorem inOrder_sound {ps cs : List Concept} {b b' : Bindings} (hp : ∀ p ∈ ps, p.FitsSoundly)
    (hc : ∀ c ∈ cs, c.Clean) (hb : b.AllValues Clean) (length : ps.length = cs.length)
    (h : Matcher.inOrder (ps.map unify) cs b = some b') :
    Extends (ps.flatMap vars) b b' ∧ ps.map (instantiate b') = cs := by
  induction ps generalizing cs b with
  | nil =>
    obtain rfl : cs = [] := by simpa using length.symm
    obtain rfl : b = b' := Option.some.inj h
    exact ⟨.refl hb, rfl⟩
  | cons p ps ih =>
    match cs, length with
    | c :: cs, length =>
      obtain ⟨b₁, first, rest⟩ := Option.bind_eq_some_iff.mp h
      have fits := hp p (by simp) (hc c (by simp)) hb first
      obtain ⟨more, same⟩ := ih (fun q hq => hp q (by simp [hq])) (fun d hd => hc d (by simp [hd]))
        fits.clean (by simpa using length) rest
      refine ⟨fits.toExtends.trans more, ?_⟩
      rw [List.map_cons, same, fits.instantiate_eq more]

/-- Patterns fitted in any order become the concepts, in some order. -/
theorem inAnyOrder_sound {ps cs : List Concept} {b b' : Bindings} (hp : ∀ p ∈ ps, p.FitsSoundly)
    (hc : ∀ c ∈ cs, c.Clean) (hb : b.AllValues Clean) (length : ps.length = cs.length)
    (h : Matcher.inAnyOrder (ps.map unify) cs b = some b') :
    Extends (ps.flatMap vars) b b' ∧ (ps.map (instantiate b')).Perm cs := by
  induction ps generalizing cs b with
  | nil =>
    obtain rfl : cs = [] := by simpa using length.symm
    obtain rfl : b = b' := Option.some.inj h
    exact ⟨.refl hb, .nil⟩
  | cons p ps ih =>
    obtain ⟨⟨c, rest⟩, picked, found⟩ := List.exists_of_findSome?_eq_some h
    have split := Matcher.perm_of_mem_picks picked
    obtain ⟨b₁, first, others⟩ := Option.bind_eq_some_iff.mp found
    have fits := hp p (by simp) (hc c (split.mem_iff.mpr (by simp))) hb first
    obtain ⟨more, perm⟩ := ih (fun q hq => hp q (by simp [hq]))
      (fun d hd => hc d (split.mem_iff.mpr (by simp [hd]))) fits.clean
      (by simpa [split.length_eq] using length) others
    refine ⟨fits.toExtends.trans more, ?_⟩
    rw [List.map_cons, fits.instantiate_eq more]
    exact (perm.cons c).trans split.symm

/-- Fitting a clean pattern to a clean concept makes it this concept. -/
theorem Clean.fitsSoundly {p : Concept} (h : p.Clean) : p.FitsSoundly := by
  induction p with
  | atom word =>
    intro c b b' hc hb found
    unfold unify at found
    by_cases hv : startsWith '$' word = true
    · rw [if_pos hv] at found
      obtain ⟨extended, bound⟩ := Bindings.extends_of_bind? hc hb found
      exact ⟨by simpa [vars_atom, hv] using extended, instantiate_atom_of_bound hv bound⟩
    · rw [if_neg hv] at found
      cases c with
      | compound => simp at found
      | atom w =>
        by_cases e : w = word
        · subst e
          obtain rfl : b = b' := by simpa using found
          exact ⟨by simpa [vars_atom, hv] using Extends.refl hb,
            instantiate_atom_of_not_variable (by simpa using hv)⟩
        · simp [e] at found
  | compound ps ih =>
    intro c b b' hc hb found
    have sound : ∀ q ∈ ps, q.FitsSoundly := fun q hq => ih q hq (h.of_mem hq)
    cases c with
    | atom => simp [unify] at found
    | compound cs =>
      simp only [unify] at found
      split at found
      case isTrue => simp at found
      case isFalse length =>
        have length : ps.length = cs.length := by simpa using length
        split at found
        case isTrue sets =>
          -- The members of two sets are fitted in any order, the ground ones first.
          simp only [Bool.and_eq_true] at sets
          obtain ⟨members, rfl⟩ := h.exists_of_isSet sets.1
          obtain ⟨placed, rfl⟩ := hc.exists_of_isSet sets.2
          obtain ⟨ordered, perm, e⟩ := Matcher.exists_groundFirst_eq members
          simp only [matchers, List.tail_cons, e] at found
          obtain ⟨extended, same⟩ := inAnyOrder_sound
            (fun q hq => sound q (by simp [perm.mem_iff.mp hq]))
            (fun d hd => hc.of_mem (by simp [hd])) hb
            (by simpa [perm.length_eq] using length) found
          have marker : startsWith '$' setMarker = false := by decide
          refine ⟨extended.perm ?_, ?_⟩
          · simpa [vars_atom, marker] using perm.flatMap_right vars
          · have members_ne : members ≠ [] := by
              rintro rfl
              exact absurd h.two_le_length (by simp)
            obtain ⟨member, more, rfl⟩ := List.exists_cons_of_ne_nil members_ne
            rw [instantiate_compound, List.map_cons, instantiate_atom_of_not_variable marker]
            change (some (node _ ((member :: more).map _))).getD _ = _
            rw [Option.getD_some]
            exact node_setMarker_of_perm (fun d hd => hc.of_mem (by simp [hd])) hc.isArranged
              ((perm.symm.map _).trans same)
        case isFalse =>
          rw [matchers_eq_map, List.map_map] at found
          obtain ⟨extended, same⟩ :=
            inOrder_sound sound (fun d hd => hc.of_mem hd) hb length found
          refine ⟨by simpa using extended, ?_⟩
          rw [h.instantiate_compound_of_isArranged (same ▸ hc.isArranged), same]

/-- Bindings under which a clean pattern fits a clean concept bind just the variables of the
pattern, and make it the concept. -/
theorem Clean.fits_of_match? {p c : Concept} {b : Bindings} (hp : p.Clean) (hc : c.Clean)
    (h : c.match? p = some b) : Fits p c ∅ b :=
  hp.fitsSoundly hc (Bindings.allValues_empty _) h

/-! ## Completeness, one pattern after the other -/

section Steps

-- What is asked of the patterns that are left and of the bindings made so far.
variable {R : Concept → Concept → Prop} {I : List Concept → Bindings → Prop}
  (step : ∀ ⦃p c : Concept⦄ ⦃ps : List Concept⦄ ⦃b : Bindings⦄, R p c → I (p :: ps) b →
    ∃ b', unify p c b = some b' ∧ I ps b')

include step

/-- If each pattern can be fitted in its turn, they are fitted in order. -/
theorem exists_inOrder {ps cs : List Concept} {b : Bindings} (h : List.Forall₂ R ps cs)
    (start : I ps b) : ∃ b', Matcher.inOrder (ps.map unify) cs b = some b' ∧ I [] b' := by
  induction h generalizing b with
  | nil => exact ⟨b, rfl, start⟩
  | cons first _ ih =>
    obtain ⟨b₁, fitted, next⟩ := step first start
    obtain ⟨b', rest, done⟩ := ih next
    exact ⟨b', by simp [Matcher.inOrder, fitted, rest], done⟩

/-- If each pattern can be fitted in its turn, they are fitted in any order: the search goes on where
a choice fails, so that one pairing is enough. -/
theorem exists_inAnyOrder {ps ds cs : List Concept} {b : Bindings} (h : List.Forall₂ R ps ds)
    (perm : ds.Perm cs) (start : I ps b) :
    ∃ b', Matcher.inAnyOrder (ps.map unify) cs b = some b' := by
  induction h generalizing cs b with
  | nil => exact ⟨b, rfl⟩
  | @cons p d ps ds first _ ih =>
    obtain ⟨rest, picked⟩ := Matcher.exists_mem_picks (perm.mem_iff.mp (List.mem_cons_self ..))
    obtain ⟨b₁, fitted, next⟩ := step first start
    obtain ⟨b', others⟩ :=
      ih (List.Perm.cons_inv (perm.trans (Matcher.perm_of_mem_picks picked))) next
    have chosen : ((unify p d b).bind (Matcher.inAnyOrder (ps.map unify) rest)).isSome = true := by
      simp [fitted, others]
    rw [List.map_cons, Matcher.inAnyOrder, ← Option.isSome_iff_exists, List.findSome?_isSome_iff]
    exact ⟨(d, rest), picked, chosen⟩

end Steps

/-! ## Completeness without sets -/

/-- A pattern without sets fits its instances, and binds no other concepts than they were made
with. -/
theorem Clean.exists_unify_instantiate {p : Concept} (h : p.Clean) (none : setMarker ∉ p.words)
    {all b : Bindings} (hall : all.AllValues Clean) (noneAll : all.AllValues (setMarker ∉ ·.words))
    (bound : ∀ name ∈ p.vars, all[name]? ≠ .none) (hb : b.IsPartOf all) :
    ∃ b', unify p (p.instantiate all) b = some b' ∧ b'.IsPartOf all := by
  induction p generalizing b with
  | atom word =>
    by_cases hv : startsWith '$' word = true
    · obtain ⟨value, e⟩ := Option.ne_none_iff_exists'.mp (bound word (by simp [vars_atom, hv]))
      obtain ⟨b', found, h'⟩ := Bindings.exists_bind? hb e
      rw [instantiate_atom_of_bound hv e]
      exact ⟨b', by simp [unify, hv, found], h'⟩
    · rw [instantiate_atom_of_not_variable (by simpa using hv)]
      exact ⟨b, by simp [unify, hv], hb⟩
  | compound ps ih =>
    have noSet : isSet (.compound ps) = false := by
      cases ps with
      | nil => rfl
      | cons head members =>
        have noneHead : setMarker ∉ head.words := fun m => none (by simp [m])
        simpa [isSet] using key_head_ne_setMarker (h.of_mem (by simp)) noneHead
    rw [h.instantiate_compound_of_no_set hall none noneAll, unify, matchers_eq_map, List.map_map]
    simp only [List.length_map, noSet, Bool.false_and, ne_eq, not_true_eq_false, if_false,
      Bool.false_eq_true, Function.comp_def]
    refine exists_inOrder (R := fun p c => p ∈ ps ∧ c = p.instantiate all)
      (I := fun _ b => b.IsPartOf all) ?_
      (List.forall₂_map_right_iff.mpr (List.forall₂_same.mpr fun p hp => ⟨hp, rfl⟩)) hb
    rintro p _ _ b ⟨hp, rfl⟩ hb
    exact ih p hp (h.of_mem hp) (fun m => none (mem_words_of_mem_parts (c := .compound ps) hp m))
      (fun name hn => bound name (mem_vars_of_mem hp hn)) hb

theorem Clean.exists_match?_instantiate {p : Concept} (h : p.Clean) (none : setMarker ∉ p.words)
    {all : Bindings} (hall : all.AllValues Clean) (noneAll : all.AllValues (setMarker ∉ ·.words))
    (bound : ∀ name ∈ p.vars, all[name]? ≠ .none) :
    ∃ b, (p.instantiate all).match? p = some b ∧ b.IsPartOf all :=
  h.exists_unify_instantiate none hall noneAll bound (Bindings.isPartOf_empty all)

end Concept

end ConceptSpace
