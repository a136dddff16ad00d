import Std.Data.String.ToNat
import ConceptSpace.Pattern.Mask
import ConceptSpace.Proofs.Pattern.Unify
import ConceptSpace.Proofs.Sequence.Traversal

/-!
# Shapes and their numbering

The shapes that a clean concept is generalized to are *formed*: what they keep is clean, and their
compounds have at least two parts. The canonical form of such a shape keeps ground concepts only,
and numbering it gives a clean concept with the variables `$k`, `$(k+1)`, …, each of them once
(`Formed.number`).
-/

namespace ConceptSpace

namespace Shape

/-- Induction over the parts of a shape. -/
@[elab_as_elim, induction_eliminator]
theorem induction {motive : Shape → Prop} (fixed : ∀ c, motive (.fixed c)) (hole : motive .hole)
    (nested : ∀ shapes, (∀ shape ∈ shapes, motive shape) → motive (.nested shapes)) (s : Shape) :
    motive s :=
  @Shape.rec motive (fun shapes => ∀ shape ∈ shapes, motive shape) fixed hole nested (by simp)
    (fun shape more hs hm => by simpa using And.intro hs hm) s

/-- Shapes of at least two parts each that keep concepts with a property only. -/
inductive Formed (P : Concept → Prop) : Shape → Prop where
  /-- A position that stays as it is. -/
  | fixed {c : Concept} (h : P c) : Formed P (.fixed c)
  /-- An open position. -/
  | hole : Formed P .hole
  /-- A compound. -/
  | nested {shapes : List Shape} (two : 2 ≤ shapes.length) (h : ∀ s ∈ shapes, Formed P s) :
    Formed P (.nested shapes)

/-- Concepts that may stand in a mask beside its variables. -/
def Kept (c : Concept) : Prop :=
  c.Clean ∧ c.IsGround

theorem ofConcepts_eq_map (cs : List Concept) : ofConcepts cs = cs.map ofConcept := by
  induction cs with
  | nil => rfl
  | cons c cs ih => simp [ofConcepts, ih]

theorem canonicals_eq_map (shapes : List Shape) : canonicals shapes = shapes.map canonical := by
  induction shapes with
  | nil => rfl
  | cons shape shapes ih => simp [canonicals, ih]

theorem anyOpen_eq_any (shapes : List Shape) : anyOpen shapes = shapes.any isOpen := by
  induction shapes with
  | nil => rfl
  | cons shape shapes ih => simp [anyOpen, ih]

/-! ## Generalizations -/

/-- The ways to treat a part of a compound. -/
inductive Treats : Shape → Concept → Prop where
  /-- The part is kept. -/
  | keep (c : Concept) : Treats (.fixed c) c
  /-- The part is left open. -/
  | leave (c : Concept) : Treats .hole c
  /-- The part is generalized. -/
  | inside {shapes : List Shape} {c : Concept} (h : shapes ∈ generalizations c)
    (opened : anyOpen shapes = true) : Treats (.nested shapes) c

/-- The generalizations of a compound treat each part in some way. -/
theorem mem_choices_iff {shapes : List Shape} {ps : List Concept} :
    shapes ∈ choices ps ↔ List.Forall₂ Treats shapes ps := by
  induction ps generalizing shapes with
  | nil => simp [choices]
  | cons p ps ih =>
    have treats : ∀ s, s ∈ (.fixed p :: .hole ::
        ((generalizations p).filter anyOpen).map .nested : List Shape) ↔ Treats s p := by
      intro s
      constructor
      · intro h
        simp only [List.mem_cons, List.mem_map, List.mem_filter] at h
        rcases h with rfl | rfl | ⟨inner, ⟨hi, opened⟩, rfl⟩
        · exact .keep p
        · exact .leave p
        · exact .inside hi opened
      · intro h
        cases h with
        | keep => simp
        | leave => simp
        | inside h opened => simp [h, opened]
    simp only [choices, List.mem_flatMap, List.mem_map, treats]
    constructor
    · rintro ⟨s, hs, more, hm, rfl⟩
      exact .cons hs (ih.mp hm)
    · intro h
      cases h with
      | cons hs hm => exact ⟨_, hs, _, ih.mpr hm, rfl⟩

/-- The generalizations of a clean concept are formed of clean concepts. -/
theorem formed_of_mem_generalizations {c : Concept} (h : c.Clean) {shapes : List Shape}
    (hs : shapes ∈ generalizations c) : Formed Concept.Clean (.nested shapes) := by
  induction c generalizing shapes with
  | atom => simp [generalizations] at hs
  | compound ps ih =>
    rw [generalizations] at hs
    have treats := mem_choices_iff.mp hs
    refine .nested (by simpa [treats.length_eq] using h.two_le_length) fun s hm => ?_
    obtain ⟨p, hp, hsp⟩ := Sequence.exists_of_mem_left treats hm
    cases hsp with
    | keep => exact .fixed (h.of_mem hp)
    | leave => exact .hole
    | inside hi => exact ih p hp (h.of_mem hp) hi

/-! ## Canonical forms -/

/-- Members are put in order, and none is lost. -/
theorem arrange_perm (shapes : List Shape) : (arrange shapes).Perm shapes := by
  cases shapes with
  | nil => exact .nil
  | cons head members =>
    refine .cons head ?_
    split
    · exact Sequence.sortBy_perm _ _
    · exact .refl _

theorem Formed.nested_arrange {P : Concept → Prop} {shapes : List Shape} (two : 2 ≤ shapes.length)
    (h : ∀ s ∈ shapes, Formed P s) : Formed P (.nested (arrange shapes)) :=
  .nested (by rwa [(arrange_perm shapes).length_eq]) fun s hs =>
    h s ((arrange_perm shapes).mem_iff.mp hs)

/-- The shape of a clean concept keeps ground concepts. -/
theorem formed_ofConcept {c : Concept} (h : c.Clean) : Formed Kept (ofConcept c) := by
  induction c with
  | atom word =>
    unfold ofConcept
    split
    · exact .hole
    case isFalse hv => exact .fixed ⟨h, by simp [Concept.IsGround, Concept.vars_atom, hv]⟩
  | compound ps ih =>
    unfold ofConcept
    split
    · rw [ofConcepts_eq_map]
      refine Formed.nested_arrange (by simpa using h.two_le_length) fun s hs => ?_
      obtain ⟨p, hp, rfl⟩ := List.mem_map.mp hs
      exact ih p hp (h.of_mem hp)
    case isFalse hv =>
      have hv : Concept.mentionsVariable (.compound ps) = false := by
        simpa [Concept.mentionsVariable] using hv
      exact .fixed ⟨h, Concept.mentionsVariable_eq_false_iff.mp hv⟩

/-- The canonical form of a shape of clean concepts keeps ground concepts. -/
theorem Formed.canonical {s : Shape} (h : Formed Concept.Clean s) : Formed Kept s.canonical := by
  induction h with
  | fixed h => exact formed_ofConcept h
  | hole => exact .hole
  | nested two _ ih =>
    rw [Shape.canonical, canonicals_eq_map]
    refine Formed.nested_arrange (by simpa using two) fun s hs => ?_
    obtain ⟨t, ht, rfl⟩ := List.mem_map.mp hs
    exact ih t ht

/-! ## Numbers as names -/

/-- The variable with a number for a name. -/
def numberedName (index : Nat) : String :=
  "$" ++ toString index

theorem toList_numberedName (index : Nat) :
    (numberedName index).toList = '$' :: Nat.toDigits 10 index := by
  simp [numberedName, Nat.toString_eq_repr, Nat.toList_repr]

theorem startsWith_numberedName (index : Nat) :
    Concept.startsWith '$' (numberedName index) = true := by
  simp [Concept.startsWith, toList_numberedName]

theorem isWordChar_of_isDigit {c : Char} (h : c.isDigit = true) :
    Source.Token.isWordChar c = true := by
  have low : 48 ≤ c.toNat ∧ c.toNat ≤ 57 := by
    simpa [Char.isDigit, UInt32.le_iff_toNat_le] using h
  have reserved : Source.Token.isReserved c = false := by
    cases e : Source.Token.isReserved c with
    | false => rfl
    | true =>
      simp only [Source.Token.isReserved, List.contains_iff_mem, List.mem_cons,
        List.not_mem_nil, or_false] at e
      rcases e with rfl | rfl | rfl | rfl | rfl | rfl | rfl <;> exact absurd h (by decide)
  have space : Text.isWhitespace c = false := by
    simp only [Text.isWhitespace, Text.whitespaceRanges, List.any_cons, List.any_nil]
    simp
    omega
  simp [Source.Token.isWordChar, reserved, space]

theorem isToken_numberedName (index : Nat) : Source.isToken (numberedName index) = true := by
  have digits : ∀ c ∈ Nat.toDigits 10 index, Source.Token.isWordChar c = true := by
    intro c hc
    have hd := Nat.isDigit_of_mem_toDigits (by decide) (by decide) hc
    exact isWordChar_of_isDigit hd
  have dollar : Source.Token.isWordChar '$' = true := by decide
  have plain : Source.isPlainWord (numberedName index) = true := by
    simp only [Source.isPlainWord, Source.isWord, toList_numberedName, List.all_cons, dollar]
    simpa [Concept.literalOpening, Source.commentOpening, List.isPrefixOf] using .inr digits
  simp [Source.isToken, plain]

theorem numberedName_inj {i j : Nat} : numberedName i = numberedName j ↔ i = j := by
  constructor
  · intro h
    have h := congrArg String.toList h
    rw [toList_numberedName, toList_numberedName, ← Nat.toList_repr, ← Nat.toList_repr] at h
    exact Nat.repr_inj.mp (String.toList_inj.mp (List.cons.inj h).2)
  · rintro rfl
    rfl

/-- A number that a word can hold is read from its name. -/
theorem variableNumber?_numberedName {i : Nat} (h : i < Text.wordCount) :
    Concept.variableNumber? (numberedName i) = some i := by
  rw [Concept.variableNumber?, toList_numberedName]
  exact Text.word?_toDigits h

/-! ## Numbering -/

/-- The names of some numbers in a row. -/
def namesFrom (first count : Nat) : List String :=
  (List.range' first count).map numberedName

theorem namesFrom_append (first m n : Nat) :
    namesFrom first m ++ namesFrom (first + m) n = namesFrom first (m + n) := by
  rw [namesFrom, namesFrom, namesFrom, ← List.map_append, List.range'_append_1]

/-- What numbering a shape from a number on gives. -/
structure IsNumbering (s : Shape) (first count : Nat) : Prop where
  /-- The result is clean. -/
  clean : (s.number first).1.Clean
  /-- Its variables are the next free ones, each once. -/
  vars : (s.number first).1.vars.Perm (namesFrom first count)
  /-- The numbering goes on behind them. -/
  free : (s.number first).2 = first + count

/-- Numbering several shapes gives the numbering of each, one after the other. -/
theorem numberAll_spec {shapes : List Shape}
    (h : ∀ s ∈ shapes, ∀ first, ∃ count, IsNumbering s first count) (first : Nat) :
    ∃ count, (∀ p ∈ (numberAll shapes first).1, p.Clean) ∧
      ((numberAll shapes first).1.flatMap Concept.vars).Perm (namesFrom first count) ∧
      (numberAll shapes first).1.length = shapes.length ∧
      (numberAll shapes first).2 = first + count := by
  induction shapes generalizing first with
  | nil => exact ⟨0, by simp [numberAll, namesFrom]⟩
  | cons s shapes ih =>
    obtain ⟨m, hs⟩ := h s (by simp) first
    obtain ⟨n, clean, vars, length, free⟩ := ih (fun t ht => h t (by simp [ht])) (first + m)
    refine ⟨m + n, ?_⟩
    simp only [numberAll, hs.free]
    refine ⟨by simpa using ⟨hs.clean, clean⟩, ?_, by simp [length], by rw [free, Nat.add_assoc]⟩
    rw [List.flatMap_cons, ← namesFrom_append]
    exact hs.vars.append vars

/-- Numbering a shape that keeps ground concepts gives a clean concept with the next free variables,
each of them once. -/
theorem Formed.number {s : Shape} (h : Formed Kept s) (first : Nat) :
    ∃ count, IsNumbering s first count := by
  induction h generalizing first with
  | @fixed c h =>
    refine ⟨0, h.1, ?_, rfl⟩
    rw [Shape.number, h.2]
    exact .refl _
  | hole =>
    refine ⟨1, Concept.clean_atom_iff.mpr (isToken_numberedName first), ?_, rfl⟩
    have e : (Shape.hole.number first).1 = .atom (numberedName first) := rfl
    rw [e, Concept.vars_atom, if_pos (startsWith_numberedName first)]
    exact .refl _
  | @nested shapes two _ ih =>
    obtain ⟨count, clean, vars, length, free⟩ := numberAll_spec ih first
    obtain ⟨placed, made, perm, arranged⟩ :=
      Concept.ofParts?_eq_compound (numberAll shapes first).1 (by omega)
    have e : (Shape.nested shapes).number first = (.compound placed, first + count) := by
      simp only [Shape.number, made, free]
    refine ⟨count, ?_, ?_, by rw [e]⟩
    · rw [e]
      exact .ofParts clean made
    · rw [e, Concept.vars_compound]
      exact (perm.flatMap_right _).trans vars

end Shape

end ConceptSpace
