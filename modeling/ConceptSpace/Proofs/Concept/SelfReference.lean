import ConceptSpace.Proofs.Source.Origin

/-!
# Resolving self-reference

To resolve `&` in a sequence of parts is to put the head in its place and then to put the members of
every set in order, those of inner sets first (`replaceSelf_eq_sortSets`). If the head does not
mention `&`, nothing does afterwards, and resolving again changes nothing.
-/

namespace ConceptSpace.Concept

mutual

/-- A concept with `head` in the place of every `&`. The members of its sets stay where they are. -/
def fillSelf (head : Concept) : Concept → Concept
  | .atom word => if word = selfReference then head else .atom word
  | .compound parts => .compound (fillSelfAll head parts)

/-- Several concepts with `head` in the place of every `&`. -/
def fillSelfAll (head : Concept) : List Concept → List Concept
  | [] => []
  | part :: more => fillSelf head part :: fillSelfAll head more

end

/-- The compound of some parts, in order if they are those of a set. -/
def arrange : List Concept → Concept
  | [] => .compound []
  | head :: members => node head members

mutual

/-- A concept with the members of every set in order, those of inner sets first. -/
def sortSets : Concept → Concept
  | .atom word => .atom word
  | .compound parts => arrange (sortSetsAll parts)

/-- Several concepts with the members of every set in order. -/
def sortSetsAll : List Concept → List Concept
  | [] => []
  | part :: more => sortSets part :: sortSetsAll more

end

theorem fillSelfAll_eq_map (head : Concept) (cs : List Concept) :
    fillSelfAll head cs = cs.map (fillSelf head) := by
  induction cs with
  | nil => rfl
  | cons c cs ih => simp [fillSelfAll, ih]

theorem sortSetsAll_eq_map (cs : List Concept) : sortSetsAll cs = cs.map sortSets := by
  induction cs with
  | nil => rfl
  | cons c cs ih => simp [sortSetsAll, ih]

variable {P : String → Prop} {head c : Concept} {ps : List Concept}

/-! ## Filling, then sorting -/

theorem ofParts?_eq_arrange (two : 2 ≤ ps.length) : ofParts? ps = some (arrange ps) := by
  match ps, two with
  | _ :: _ :: _, _ => rfl

theorem arrange_of_isArranged (h : IsArranged ps) : arrange ps = .compound ps := by
  cases ps with
  | nil => rfl
  | cons head members => exact node_of_isArranged h

/-- The sets of what the constructors build are in order already. -/
theorem BuiltFrom.sortSets_eq (h : BuiltFrom P c) : sortSets c = c := by
  induction h with
  | atom => rfl
  | @compound ps _ _ arranged ih =>
    have kept : ps.map sortSets = ps := (List.map_congr_left ih).trans (List.map_id' ps)
    rw [sortSets, sortSetsAll_eq_map, kept]
    exact arrange_of_isArranged arranged

theorem replaceSelf_eq_sortSets (hh : BuiltFrom P head) (h : BuiltFrom P c) :
    replaceSelf head c = sortSets (fillSelf head c) := by
  induction h with
  | @atom word _ =>
    by_cases self : word = selfReference
    · simp [replaceSelf, fillSelf, self, hh.sortSets_eq]
    · simp [replaceSelf, fillSelf, self, sortSets]
  | @compound ps two _ _ ih =>
    have inner : ps.map (replaceSelf head) = (ps.map (fillSelf head)).map sortSets := by
      rw [List.map_map]
      exact List.map_congr_left ih
    have made : ofParts? (ps.map (replaceSelf head)) = some (arrange (ps.map (replaceSelf head))) :=
      ofParts?_eq_arrange (by simpa using two)
    rw [replaceSelf, replaceSelfAll_eq_map, made, Option.getD_some, inner, fillSelf,
      fillSelfAll_eq_map, sortSets, sortSetsAll_eq_map]

/-! ## The words that remain -/

theorem words_arrange_perm (ps : List Concept) : (arrange ps).words.Perm (ps.flatMap words) := by
  cases ps with
  | nil => exact .refl _
  | cons head members =>
    obtain ⟨placed, made, perm, -⟩ := node_eq_compound head members
    rw [arrange, made, words_compound]
    exact (perm.cons head).flatMap_right words

theorem words_sortSets_perm (c : Concept) : (sortSets c).words.Perm c.words := by
  induction c with
  | atom word => exact .refl _
  | compound ps ih =>
    rw [sortSets, sortSetsAll_eq_map, words_compound]
    refine (words_arrange_perm _).trans ?_
    rw [List.flatMap_map]
    exact List.Perm.flatMap_left ps ih

/-- Every `&` gives way to the words of the head. -/
theorem words_fillSelf (head c : Concept) : (fillSelf head c).words =
    c.words.flatMap fun word => if word = selfReference then head.words else [word] := by
  induction c with
  | atom word =>
    rw [fillSelf]
    split <;> simp [*]
  | compound ps ih =>
    rw [fillSelf, fillSelfAll_eq_map, words_compound, words_compound, List.flatMap_map,
      List.flatMap_assoc]
    exact List.flatMap_congr ih

theorem selfReference_not_mem_words (free : selfReference ∉ head.words) (c : Concept) :
    selfReference ∉ (sortSets (fillSelf head c)).words := by
  rw [(words_sortSets_perm _).mem_iff, words_fillSelf, List.mem_flatMap]
  rintro ⟨word, -, h⟩
  by_cases self : word = selfReference
  · rw [if_pos self] at h
    exact free h
  · rw [if_neg self] at h
    exact self (List.mem_singleton.mp h).symm

/-! ## Sequences of parts -/

theorem resolveSelf_of_exists {rest : List Concept} (built : ∀ p ∈ head :: rest, BuiltFrom P p)
    (h : ∃ p ∈ rest, selfReference ∈ p.words) :
    resolveSelf (head :: rest) = rest.map fun p => sortSets (fillSelf head p) := by
  have found : anyMentionsSelf rest = true := by
    obtain ⟨p, hp, self⟩ := h
    rw [anyMentionsSelf_eq_any, List.any_eq_true]
    exact ⟨p, hp, mentionsSelf_iff.mpr self⟩
  rw [resolveSelf, if_pos found, replaceSelfAll_eq_map]
  refine List.map_congr_left fun p hp => ?_
  exact replaceSelf_eq_sortSets (built head (by simp)) (built p (by simp [hp]))

/-- Behind a head that does not mention it, `&` is resolved once and for all: if it occurs, the head
takes its place and is dropped, the sets are put in order, and no `&` is left. -/
theorem resolveSelf_fills_or_keeps {ps : List Concept} (built : ∀ p ∈ ps, p.BuiltFrom fun _ => True)
    (free : ∀ head ∈ ps.head?, selfReference ∉ head.words) :
    (∀ head rest, ps = head :: rest → (∃ p ∈ rest, selfReference ∈ p.words) →
      resolveSelf ps = (rest.map fun p => sortSets (fillSelf head p)) ∧
        ∀ p ∈ resolveSelf ps, selfReference ∉ p.words) ∧
    ((∀ p ∈ ps.tail, selfReference ∉ p.words) → resolveSelf ps = ps) ∧
    resolveSelf (resolveSelf ps) = resolveSelf ps := by
  have filled : ∀ head rest, ps = head :: rest → (∃ p ∈ rest, selfReference ∈ p.words) →
      resolveSelf ps = (rest.map fun p => sortSets (fillSelf head p)) ∧
        ∀ p ∈ resolveSelf ps, selfReference ∉ p.words := by
    rintro head rest rfl h
    have made := resolveSelf_of_exists built h
    refine ⟨made, ?_⟩
    rw [made]
    intro p hp
    obtain ⟨q, -, rfl⟩ := List.mem_map.mp hp
    exact selfReference_not_mem_words (free head (by simp)) q
  refine ⟨filled, resolveSelf_of_forall_tail, ?_⟩
  by_cases h : ∀ p ∈ ps.tail, selfReference ∉ p.words
  · rw [resolveSelf_of_forall_tail h, resolveSelf_of_forall_tail h]
  · push Not at h
    cases ps with
    | nil => simp at h
    | cons head rest => exact resolveSelf_of_forall (filled head rest rfl h).2

/-- A set marker as the head makes a set of a part, whose members change places. -/
theorem resolveSelf_marker :
    resolveSelf [.atom ":", .compound [.atom "&", .atom "b", .atom "a"]] =
      [.compound [.atom ":", .atom "a", .atom "b"]] := by
  have built : ∀ p ∈ [Concept.atom ":", .compound [.atom "&", .atom "b", .atom "a"]],
      p.BuiltFrom fun _ => True := by
    have part : BuiltFrom (fun _ => True) (.compound [.atom "&", .atom "b", .atom "a"]) :=
      .compound (by decide) (by simpa using ⟨.atom trivial, .atom trivial, .atom trivial⟩)
        (by decide)
    simpa using ⟨.atom trivial, part⟩
  have filled := (resolveSelf_fills_or_keeps built (by decide)).1 _ _ rfl
    (by decide)
  rw [filled.1]
  decide

end ConceptSpace.Concept
