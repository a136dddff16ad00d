import ConceptSpace.Proofs.Pattern.Numbering

/-!
# Canonical shapes

The shapes that masks are numbered from are *canonical*: what they keep is ground, every compound in
them is open somewhere, and the members of sets are in the order of their erased texts. The erased
text of a canonical shape is that of a concept, its *blank*, and determines the shape
(`IsCanonical.erased_inj`), so that this order does not depend on how the members were given
(`arrange_cons_of_perm`). Numbering a canonical shape loses nothing: the shape can be read off the
mask (`IsCanonical.ofConcept_number`).
-/

namespace ConceptSpace

namespace Shape

open ConceptSpace.Concept (IsArranged)

/-! ## Blanks -/

/-- The word that is written for every open position. -/
def blankName : String := "$"

mutual

/-- A shape as a concept, with the same variable at all open positions. -/
def blank : Shape → Concept
  | .fixed c => c
  | .hole => .atom blankName
  | .nested shapes => .compound (blanks shapes)

/-- Several shapes as concepts. -/
def blanks : List Shape → List Concept
  | [] => []
  | shape :: more => blank shape :: blanks more

end

theorem blanks_eq_map (shapes : List Shape) : blanks shapes = shapes.map blank := by
  induction shapes with
  | nil => rfl
  | cons shape shapes ih => simp [blanks, ih]

theorem spaced_map_blank {shapes : List Shape} (h : ∀ s ∈ shapes, s.blank.asPart = s.erased) :
    Concept.spaced (shapes.map blank) = erasedAll shapes := by
  induction shapes with
  | nil => rfl
  | cons s shapes ih =>
    have first := h s (by simp)
    have rest := ih fun t ht => h t (by simp [ht])
    cases shapes with
    | nil => simpa [Concept.spaced, erasedAll] using first
    | cons t shapes =>
      rw [List.map_cons, List.map_cons, Concept.spaced_cons_cons, first, erasedAll, ← rest,
        List.map_cons]

theorem asPart_blank (s : Shape) : s.blank.asPart = s.erased := by
  induction s with
  | fixed c => rfl
  | hole => rfl
  | nested shapes ih =>
    rw [blank, Concept.asPart, blanks_eq_map, spaced_map_blank ih, erased]

theorem isOpen_iff {s : Shape} : s.isOpen = true ↔ ¬ s.blank.IsGround := by
  induction s with
  | fixed c => exact Concept.mentionsVariable_iff
  | hole =>
    have opened : ¬ Concept.IsGround (.atom blankName) := by decide
    exact iff_of_true rfl opened
  | nested shapes ih =>
    simp only [isOpen, anyOpen_eq_any, List.any_eq_true, blank, blanks_eq_map,
      Concept.isGround_compound, not_forall, List.mem_map]
    constructor
    · rintro ⟨s, hs, opened⟩
      exact ⟨s.blank, ⟨s, hs, rfl⟩, (ih s hs).mp opened⟩
    · rintro ⟨_, ⟨s, hs, rfl⟩, opened⟩
      exact ⟨s, hs, (ih s hs).mpr opened⟩

/-! ## The order of members -/

theorem erasedLe_total (a b : Shape) : (erasedLe a b || erasedLe b a) = true := by
  simpa [erasedLe] using String.le_total a.erased b.erased

theorem erasedLe_trans (a b c : Shape) (hab : erasedLe a b = true) (hbc : erasedLe b c = true) :
    erasedLe a c = true := by
  simp only [erasedLe, decide_eq_true_eq] at *
  exact String.le_trans hab hbc

theorem pairwise_sortBy_erasedLe (shapes : List Shape) :
    (Sequence.sortBy erasedLe shapes).Pairwise (erasedLe · ·) :=
  Sequence.pairwise_sortBy erasedLe_total erasedLe_trans shapes

theorem arrange_arrange (shapes : List Shape) : arrange (arrange shapes) = arrange shapes := by
  cases shapes with
  | nil => rfl
  | cons head members =>
    by_cases set : head.isSetMarker = true
    · simp [arrange, set, Sequence.sortBy_of_pairwise (pairwise_sortBy_erasedLe members)]
    · simp [arrange, set]

theorem anyOpen_arrange (shapes : List Shape) : anyOpen (arrange shapes) = anyOpen shapes := by
  rw [anyOpen_eq_any, anyOpen_eq_any]
  exact (arrange_perm shapes).any_eq

/-! ## Canonical shapes -/

/-- The shapes that masks are numbered from. -/
inductive IsCanonical : Shape → Prop where
  /-- A ground concept. -/
  | fixed {c : Concept} (h : Kept c) : IsCanonical (.fixed c)
  /-- An open position. -/
  | hole : IsCanonical .hole
  /-- A compound that is open somewhere. -/
  | nested {shapes : List Shape} (two : 2 ≤ shapes.length) (parts : ∀ s ∈ shapes, IsCanonical s)
    (opened : anyOpen shapes = true) (arranged : arrange shapes = shapes) :
    IsCanonical (.nested shapes)

theorem IsCanonical.formed {s : Shape} (h : IsCanonical s) : Formed Kept s := by
  induction h with
  | fixed h => exact .fixed h
  | hole => exact .hole
  | nested two _ _ _ ih => exact .nested two ih

theorem isCanonical_nested_arrange {shapes : List Shape} (two : 2 ≤ shapes.length)
    (parts : ∀ s ∈ shapes, IsCanonical s) (opened : anyOpen shapes = true) :
    IsCanonical (.nested (arrange shapes)) := by
  refine .nested ?_ (fun s hs => parts s ((arrange_perm shapes).mem_iff.mp hs)) ?_
    (arrange_arrange shapes)
  · rwa [(arrange_perm shapes).length_eq]
  · rwa [anyOpen_arrange]

theorem isOpen_ofConcept (c : Concept) : (ofConcept c).isOpen = c.mentionsVariable := by
  induction c with
  | atom word => by_cases hv : Concept.startsWith '$' word = true <;>
      simp [ofConcept, hv, isOpen, Concept.mentionsVariable]
  | compound ps ih =>
    have parts : anyOpen (ofConcepts ps) = Concept.anyMentionsVariable ps := by
      rw [anyOpen_eq_any, ofConcepts_eq_map, List.any_map, Concept.anyMentionsVariable_eq_any]
      exact Sequence.any_congr_of_mem ih
    unfold ofConcept
    split
    case isTrue mentions =>
      rw [isOpen, anyOpen_arrange, parts]
      rfl
    case isFalse => rfl

theorem anyOpen_map_ofConcept (cs : List Concept) :
    anyOpen (cs.map ofConcept) = Concept.anyMentionsVariable cs := by
  rw [anyOpen_eq_any, List.any_map, Concept.anyMentionsVariable_eq_any]
  exact Sequence.any_congr_of_mem fun c _ => isOpen_ofConcept c

theorem isCanonical_ofConcept {c : Concept} (h : c.Clean) : IsCanonical (ofConcept c) := by
  induction c with
  | atom word =>
    unfold ofConcept
    split
    · exact .hole
    case isFalse hv => exact .fixed ⟨h, by simp [Concept.IsGround, Concept.vars_atom, hv]⟩
  | compound ps ih =>
    unfold ofConcept
    split
    case isTrue mentions =>
      rw [ofConcepts_eq_map]
      refine isCanonical_nested_arrange (by simpa using h.two_le_length) (fun s hs => ?_) ?_
      · obtain ⟨p, hp, rfl⟩ := List.mem_map.mp hs
        exact ih p hp (h.of_mem hp)
      · rw [anyOpen_map_ofConcept, mentions]
    case isFalse hv =>
      have hv : Concept.mentionsVariable (.compound ps) = false := by
        simpa [Concept.mentionsVariable] using hv
      exact .fixed ⟨h, Concept.mentionsVariable_eq_false_iff.mp hv⟩

theorem isOpen_canonical (s : Shape) : s.canonical.isOpen = s.isOpen := by
  induction s with
  | fixed c => exact isOpen_ofConcept c
  | hole => rfl
  | nested shapes ih =>
    rw [canonical, isOpen, anyOpen_arrange, canonicals_eq_map, isOpen, anyOpen_eq_any,
      anyOpen_eq_any, List.any_map]
    exact Sequence.any_congr_of_mem ih

theorem isCanonical_of_mem_generalizations {c : Concept} (h : c.Clean) {shapes : List Shape}
    (hs : shapes ∈ generalizations c) (opened : anyOpen shapes = true) :
    IsCanonical (canonical (.nested shapes)) := by
  induction c generalizing shapes with
  | atom => simp [generalizations] at hs
  | compound ps ih =>
    rw [generalizations] at hs
    have treats := mem_choices_iff.mp hs
    rw [canonical, canonicals_eq_map]
    refine isCanonical_nested_arrange ?_ (fun s hm => ?_) ?_
    · simpa [treats.length_eq] using h.two_le_length
    · obtain ⟨t, ht, rfl⟩ := List.mem_map.mp hm
      obtain ⟨p, hp, treated⟩ := Sequence.exists_of_mem_left treats ht
      cases treated with
      | keep => exact isCanonical_ofConcept (h.of_mem hp)
      | leave => exact .hole
      | inside hi opened => exact ih p hp (h.of_mem hp) hi opened
    · rw [← opened, anyOpen_eq_any, anyOpen_eq_any, List.any_map]
      exact Sequence.any_congr_of_mem fun t _ => isOpen_canonical t

/-! ## Erased texts -/

theorem Formed.readable_blank {s : Shape} (h : Formed Kept s) : s.blank.Readable := by
  induction h with
  | fixed h => exact h.1.readable
  | hole => exact .atom (by decide)
  | @nested shapes two _ ih =>
    rw [blank, blanks_eq_map]
    refine .compound (fun none => ?_) fun p hp => ?_
    · rw [List.map_eq_nil_iff.mp none] at two
      exact absurd two (by simp)
    · obtain ⟨s, hs, rfl⟩ := List.mem_map.mp hp
      exact ih s hs

/-- What a canonical shape keeps has no variable, so that its blank tells the open positions. -/
theorem IsCanonical.blank_inj {s t : Shape} (hs : IsCanonical s) (ht : IsCanonical t)
    (h : s.blank = t.blank) : s = t := by
  -- Equal blanks are open at the same positions, so that unlike shapes are told apart by openness.
  have openness : s.isOpen = t.isOpen := by
    rw [Bool.eq_iff_iff, isOpen_iff, isOpen_iff, h]
  induction hs generalizing t with
  | @fixed c kept =>
    have closed : Shape.isOpen (.fixed c) = false :=
      Concept.mentionsVariable_eq_false_iff.mpr kept.2
    cases ht with
    | fixed => exact congrArg Shape.fixed h
    | hole => exact absurd (closed.symm.trans openness) (by simp [isOpen])
    | nested _ _ opened => exact absurd (closed.symm.trans openness) (by simp [isOpen, opened])
  | hole =>
    cases ht with
    | fixed kept =>
      have closed := Concept.mentionsVariable_eq_false_iff.mpr kept.2
      exact absurd openness (by simp [isOpen, closed])
    | hole => rfl
    | nested => cases h
  | @nested shapes two parts opened arranged ih =>
    cases ht with
    | fixed kept =>
      have closed := Concept.mentionsVariable_eq_false_iff.mpr kept.2
      exact absurd openness (by simp [isOpen, opened, closed])
    | hole => cases h
    | @nested others _ parts' _ _ =>
      have blanks : shapes.map blank = others.map blank := by
        simpa [blank, blanks_eq_map] using h
      refine congrArg Shape.nested (Sequence.eq_of_map_eq (fun a ha b hb same => ?_) blanks)
      exact ih a ha (parts' b hb) same (by rw [Bool.eq_iff_iff, isOpen_iff, isOpen_iff, same])

/-- The erased text of a canonical shape determines it. -/
theorem IsCanonical.erased_inj {s t : Shape} (hs : IsCanonical s) (ht : IsCanonical t)
    (h : s.erased = t.erased) : s = t := by
  rw [← asPart_blank, ← asPart_blank,
    hs.formed.readable_blank.asPart_inj ht.formed.readable_blank] at h
  exact hs.blank_inj ht h

theorem arrange_cons_of_perm {head : Shape} {members others : List Shape}
    (canonical : ∀ s ∈ members, IsCanonical s) (perm : members.Perm others)
    (same : head.isSetMarker = false → members = others) :
    arrange (head :: members) = arrange (head :: others) := by
  cases set : head.isSetMarker with
  | false => rw [same set]
  | true =>
    have sorted : (Sequence.sortBy erasedLe members).Perm (Sequence.sortBy erasedLe others) :=
      ((Sequence.sortBy_perm _ _).trans perm).trans (Sequence.sortBy_perm _ _).symm
    simp only [arrange, set, if_true]
    refine congrArg (head :: ·) (sorted.eq_of_pairwise (fun s t hs ht hst hts => ?_)
      (pairwise_sortBy_erasedLe members) (pairwise_sortBy_erasedLe others))
    have hs := canonical s (Sequence.mem_sortBy.mp hs)
    have ht := canonical t (perm.mem_iff.mpr (Sequence.mem_sortBy.mp ht))
    simp only [erasedLe, decide_eq_true_eq] at hst hts
    exact hs.erased_inj ht (String.le_antisymm hst hts)

/-- The shape of an open compound is that of its parts, in whatever order a constructor has put the
members of a set. -/
theorem ofConcept_compound_of_perm {head : Concept} {placed : List Concept} {members : List Shape}
    (canonical : ∀ s ∈ members, IsCanonical s) (perm : (placed.map ofConcept).Perm members)
    (same : (ofConcept head).isSetMarker = false → placed.map ofConcept = members)
    (opened : anyOpen (ofConcept head :: members) = true) :
    ofConcept (.compound (head :: placed)) = .nested (arrange (ofConcept head :: members)) := by
  have mentions : Concept.anyMentionsVariable (head :: placed) = true := by
    rwa [← anyOpen_map_ofConcept, List.map_cons, anyOpen_eq_any, (perm.cons _).any_eq,
      ← anyOpen_eq_any]
  rw [ofConcept, if_pos mentions, ofConcepts_eq_map, List.map_cons]
  refine congrArg nested (arrange_cons_of_perm canonical perm.symm fun noSet => ?_).symm
  exact (same noSet).symm

/-! ## Reading shapes off masks -/

theorem forall₂_numberAll {R : Shape → Concept → Prop} {shapes : List Shape}
    (h : ∀ s ∈ shapes, ∀ k, R s (s.number k).1) (first : Nat) :
    List.Forall₂ R shapes (numberAll shapes first).1 := by
  induction shapes generalizing first with
  | nil => exact .nil
  | cons s shapes ih => exact .cons (h s (by simp) first) (ih (fun t ht => h t (by simp [ht])) _)

/-- A compound is numbered part by part; the members of a set are then put in the order of their
keys. -/
theorem exists_number_nested {R : Shape → Concept → Prop} {shapes : List Shape}
    (two : 2 ≤ shapes.length) (h : ∀ s ∈ shapes, ∀ k, R s (s.number k).1) (first : Nat) :
    ∃ head members p ps placed, shapes = head :: members ∧ R head p ∧ List.Forall₂ R members ps ∧
      ((nested shapes).number first).1 = .compound (p :: placed) ∧ placed.Perm ps ∧
      (p.key ≠ Concept.setMarker → placed = ps) := by
  match shapes, two with
  | head :: member :: members, _ =>
    have related := forall₂_numberAll (fun s hs => h s (List.mem_cons_of_mem head hs))
      (head.number first).2
    obtain ⟨placed, made, perm, -, same⟩ := Concept.node_eq_compound (head.number first).1
      (numberAll (member :: members) (head.number first).2).1
    refine ⟨head, member :: members, _, _, placed, rfl, h head (by simp) first, related, ?_, perm,
      same⟩
    rw [← made]
    rfl

/-- Only the set marker is numbered as the set marker. -/
theorem IsCanonical.key_number_iff {s : Shape} (h : IsCanonical s) (first : Nat) :
    (s.number first).1.key = Concept.setMarker ↔ s.isSetMarker = true := by
  cases h with
  | fixed h => simp [number, isSetMarker]
  | hole =>
    have name : (Concept.numberedVariable first).key = numberedName first := rfl
    have ne : numberedName first ≠ Concept.setMarker := fun e => by
      have := startsWith_numberedName first
      rw [e] at this
      exact absurd this (by decide)
    simp [number, isSetMarker, name, ne]
  | @nested shapes two parts opened arranged =>
    obtain ⟨count, numbering⟩ := (IsCanonical.nested two parts opened arranged).formed.number first
    obtain ⟨head, members, p, ps, placed, rfl, -, -, e, -⟩ :=
      exists_number_nested (R := fun _ _ => True) two (by simp) first
    have clean := numbering.clean
    rw [e] at clean ⊢
    simpa [isSetMarker] using clean.key_ne_setMarker

/-- The shape of a numbered concept is the one that was numbered. -/
theorem IsCanonical.ofConcept_number {s : Shape} (h : IsCanonical s) (first : Nat) :
    ofConcept (s.number first).1 = s := by
  induction h generalizing first with
  | @fixed c kept =>
    have closed := Concept.mentionsVariable_eq_false_iff.mpr kept.2
    cases c with
    | atom word =>
      have hv : Concept.startsWith '$' word = false := closed
      simp [number, ofConcept, hv]
    | compound ps =>
      have hv : Concept.anyMentionsVariable ps = false := closed
      simp [number, ofConcept, hv]
  | hole =>
    have hv := startsWith_numberedName first
    exact if_pos hv
  | @nested shapes two parts opened arranged ih =>
    obtain ⟨head, members, p, ps, placed, rfl, headShape, memberShapes, e, perm, same⟩ :=
      exists_number_nested (R := fun s p => ofConcept p = s ∧
        (p.key = Concept.setMarker ↔ s.isSetMarker = true)) two
        (fun s hs k => ⟨ih s hs k, (parts s hs).key_number_iff k⟩) first
    obtain ⟨headShape, marker⟩ := headShape
    have memberShapes : ps.map ofConcept = members := by
      rw [← List.forall₂_eq_eq_eq, List.forall₂_map_left_iff]
      exact (memberShapes.imp fun _ _ h => h.1.symm).flip.imp fun _ _ h => h.symm
    -- The keys may put the members of a set in another order than the erased texts did.
    have shape : ofConcept (.compound (p :: placed)) =
        .nested (arrange (ofConcept p :: members)) := by
      refine ofConcept_compound_of_perm (fun s hs => parts s (by simp [hs]))
        (memberShapes ▸ perm.map ofConcept) (fun noSet => ?_) (by rwa [headShape])
      rw [headShape] at noSet
      rw [same (mt marker.mp (by simp [noSet])), memberShapes]
    rw [e, shape, headShape, arranged]

theorem IsCanonical.mask_toMask {s : Shape} (h : IsCanonical s) : s.toMask.mask = s.toMask := by
  have shape : ofConcept s.toMask = s := h.ofConcept_number 0
  rw [Concept.mask, shape]

/-! ## The words of masks -/

/-- A word with its name left out if it is a variable. -/
def blankWord (word : String) : String :=
  if Concept.startsWith '$' word then blankName else word

theorem startsWith_blankWord (word : String) :
    Concept.startsWith '$' (blankWord word) = Concept.startsWith '$' word := by
  unfold blankWord
  split
  case isTrue hv => rw [hv]; decide
  case isFalse => rfl

theorem map_blankWord_of_isGround {c : Concept} (h : c.IsGround) :
    c.words.map blankWord = c.words := by
  refine (List.map_congr_left fun word hw => ?_).trans (List.map_id _)
  exact if_neg fun hv => List.filter_eq_nil_iff.mp h word hw hv

/-- Up to the names of variables, numbering keeps the words. -/
theorem Formed.words_number {s : Shape} (h : Formed Kept s) (first : Nat) :
    ((s.number first).1.words.map blankWord).Perm s.blank.words := by
  induction h generalizing first with
  | fixed h => exact .of_eq (map_blankWord_of_isGround h.2)
  | hole =>
    have word : blankWord (numberedName first) = blankName := if_pos (startsWith_numberedName first)
    exact .of_eq (congrArg (fun w => [w]) word)
  | @nested shapes two _ ih =>
    obtain ⟨head, members, p, ps, placed, rfl, hp, hps, e, perm, -⟩ := exists_number_nested
      (R := fun s p => s.blank.words.Perm (p.words.map blankWord)) two
      (fun s hs k => (ih s hs k).symm) first
    rw [e, blank, blanks_eq_map, Concept.words_compound, Concept.words_compound, List.map_flatMap,
      List.flatMap_map]
    have parts : ((head :: members).flatMap fun s => s.blank.words).Perm
        ((p :: ps).flatMap fun q => q.words.map blankWord) := Sequence.perm_flatMap (.cons hp hps)
    exact ((perm.cons p).flatMap_right _).trans parts.symm

theorem words_blank_ofConcept (c : Concept) :
    (ofConcept c).blank.words.Perm (c.words.map blankWord) := by
  induction c with
  | atom word =>
    unfold ofConcept
    split
    case isTrue hv => simp [blank, blankWord, hv]
    case isFalse hv => simp [blank, blankWord, hv]
  | compound ps ih =>
    unfold ofConcept
    split
    case isTrue =>
      have parts := List.Perm.flatMap_left ps ih
      rw [blank, blanks_eq_map, Concept.words_compound, Concept.words_compound, List.map_flatMap,
        List.flatMap_map, ofConcepts_eq_map]
      refine ((arrange_perm _).flatMap_right _).trans ?_
      rwa [List.flatMap_map]
    case isFalse closed =>
      have ground : Concept.IsGround (.compound ps) :=
        Concept.mentionsVariable_eq_false_iff.mp (by simpa [Concept.mentionsVariable] using closed)
      rw [map_blankWord_of_isGround ground]
      exact .refl _

end Shape

namespace Concept

variable {p : Concept}

/-- Up to the names of variables, a mask has the words of its pattern. -/
theorem Clean.words_mask (h : p.Clean) :
    (p.mask.words.map Shape.blankWord).Perm (p.words.map Shape.blankWord) :=
  ((Shape.isCanonical_ofConcept h).formed.words_number 0).trans (Shape.words_blank_ofConcept p)

theorem length_filter_map_blankWord (words : List String) :
    ((words.map Shape.blankWord).filter (startsWith '$')).length =
      (words.filter (startsWith '$')).length := by
  rw [List.filter_map, List.length_map]
  exact congrArg List.length (List.filter_congr fun word _ => Shape.startsWith_blankWord word)

theorem Clean.clean_mask (h : p.Clean) : p.mask.Clean := by
  obtain ⟨count, numbering⟩ := (Shape.formed_ofConcept h).number 0
  exact numbering.clean

/-- The variables of a mask are the numbers of those of the pattern. -/
theorem Clean.vars_mask_perm (h : p.Clean) :
    p.mask.vars.Perm (Shape.namesFrom 0 p.vars.length) := by
  obtain ⟨count, numbering⟩ := (Shape.formed_ofConcept h).number 0
  have names : p.mask.vars.length = count :=
    numbering.vars.length_eq.trans (by simp [Shape.namesFrom])
  have words := (h.words_mask.filter (startsWith '$')).length_eq
  rw [length_filter_map_blankWord, length_filter_map_blankWord] at words
  have same : count = p.vars.length := names.symm.trans words
  exact same ▸ numbering.vars

/-- A word that is no variable is kept by the mask, which so has one just if the pattern does. -/
theorem Clean.hasPlainWord_mask_iff (h : p.Clean) : p.mask.HasPlainWord ↔ p.HasPlainWord := by
  have kept : ∀ word : String, startsWith '$' word = false → Shape.blankWord word = word :=
    fun word hv => by simp [Shape.blankWord, hv]
  have has_of_perm : ∀ {q r : Concept},
      (q.words.map Shape.blankWord).Perm (r.words.map Shape.blankWord) →
        q.HasPlainWord → r.HasPlainWord := by
    rintro q r perm ⟨word, hw, hv⟩
    obtain ⟨other, ho, same⟩ := List.mem_map.mp
      (perm.mem_iff.mp (List.mem_map.mpr ⟨word, hw, kept word hv⟩))
    exact ⟨other, ho, by rw [← Shape.startsWith_blankWord, same, hv]⟩
  exact ⟨has_of_perm h.words_mask, has_of_perm h.words_mask.symm⟩

theorem Clean.hasPlainWord_mask (h : p.Clean) (plain : p.HasPlainWord) : p.mask.HasPlainWord :=
  h.hasPlainWord_mask_iff.mpr plain

end Concept

end ConceptSpace
