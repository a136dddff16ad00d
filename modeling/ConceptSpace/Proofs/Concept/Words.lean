import ConceptSpace.Proofs.Source.Keys
import ConceptSpace.Source.SelfReference

/-!
# The words of a concept

The words of a concept from left to right, and among them its variables. What the library asks
about the words inside a concept (variables, the set marker, `&`) is said through these lists.
-/

namespace ConceptSpace.Concept

mutual

/-- The words of a concept, from left to right. -/
def words : Concept → List String
  | .atom word => [word]
  | .compound parts => allWords parts

/-- The words of several concepts, from left to right. -/
def allWords : List Concept → List String
  | [] => []
  | part :: more => part.words ++ allWords more

end

/-- The variables of a concept, from left to right, each as often as it occurs. -/
def vars (c : Concept) : List String :=
  c.words.filter (startsWith '$')

/-- A concept without variables. -/
def IsGround (c : Concept) : Prop :=
  c.vars = []

instance (c : Concept) : Decidable c.IsGround :=
  inferInstanceAs (Decidable (c.vars = []))

theorem allWords_eq_flatMap (cs : List Concept) : allWords cs = cs.flatMap words := by
  induction cs with
  | nil => rfl
  | cons c cs ih => simp [allWords, ih]

@[simp] theorem words_atom (word : String) : (atom word).words = [word] := rfl

@[simp] theorem words_compound (ps : List Concept) : (compound ps).words = ps.flatMap words :=
  allWords_eq_flatMap ps

theorem vars_atom (word : String) :
    (atom word).vars = if startsWith '$' word then [word] else [] := by
  by_cases h : startsWith '$' word = true <;> simp [vars, h]

@[simp] theorem vars_compound (ps : List Concept) :
    (compound ps).vars = ps.flatMap vars := by
  rw [vars, words_compound, List.filter_flatMap]
  rfl

theorem mem_words_of_mem_parts {c p : Concept} (hp : p ∈ c.parts) {word : String}
    (h : word ∈ p.words) : word ∈ c.words := by
  cases c with
  | atom => simp at hp
  | compound ps => simpa using ⟨p, hp, h⟩

/-- A concept made of parts has their words. -/
theorem words_perm_of_ofParts? {ps : List Concept} {c : Concept} (h : ofParts? ps = some c) :
    c.words.Perm (ps.flatMap words) := by
  match ps, h with
  | [p], h =>
    obtain rfl : p = c := Option.some.inj h
    simp
  | head :: member :: members, h =>
    obtain ⟨placed, made, perm, -⟩ := ofParts?_eq_compound (head :: member :: members) (by simp)
    obtain rfl : compound placed = c := Option.some.inj (made.symm.trans h)
    rw [words_compound]
    exact perm.flatMap_right words

theorem mem_words_of_mem_vars {c : Concept} {word : String} (h : word ∈ c.vars) :
    word ∈ c.words :=
  (List.mem_filter.mp h).1

theorem isGround_compound {ps : List Concept} :
    IsGround (.compound ps) ↔ ∀ p ∈ ps, p.IsGround := by
  simp [IsGround]

theorem IsGround.of_mem_parts {c p : Concept} (h : c.IsGround) (hp : p ∈ c.parts) :
    p.IsGround := by
  cases c with
  | atom => simp at hp
  | compound ps => exact isGround_compound.mp h p hp

/-! ## Questions about the words -/

theorem mentionsVariable_iff {c : Concept} : c.mentionsVariable = true ↔ ¬ c.IsGround := by
  induction c with
  | atom word => simp [mentionsVariable, IsGround, vars_atom]
  | compound ps ih =>
    simp only [mentionsVariable, anyMentionsVariable_eq_any, List.any_eq_true, isGround_compound,
      not_forall]
    constructor
    · rintro ⟨p, hp, h⟩
      exact ⟨p, hp, (ih p hp).mp h⟩
    · rintro ⟨p, hp, h⟩
      exact ⟨p, hp, (ih p hp).mpr h⟩

theorem mentionsVariable_eq_false_iff {c : Concept} : c.mentionsVariable = false ↔ c.IsGround := by
  rw [← Bool.not_eq_true, mentionsVariable_iff, not_not]

theorem isAllVariables_iff {c : Concept} :
    c.isAllVariables = true ↔ ∀ word ∈ c.words, startsWith '$' word = true := by
  induction c with
  | atom word => simp [isAllVariables]
  | compound ps ih =>
    simp only [isAllVariables, areAllVariables_eq_all, List.all_eq_true, words_compound,
      List.mem_flatMap]
    constructor
    · rintro h word ⟨p, hp, hw⟩
      exact (ih p hp).mp (h p hp) word hw
    · intro h p hp
      exact (ih p hp).mpr fun word hw => h word ⟨p, hp, hw⟩

/-- A word that tells a pattern from one that fits everything. -/
def HasPlainWord (p : Concept) : Prop :=
  ∃ word ∈ p.words, startsWith '$' word = false

theorem isAllVariables_eq_false_iff {c : Concept} :
    c.isAllVariables = false ↔ c.HasPlainWord := by
  rw [← Bool.not_eq_true, isAllVariables_iff]
  simp [HasPlainWord]

theorem mentionsSelf_iff {c : Concept} : c.mentionsSelf = true ↔ selfReference ∈ c.words := by
  induction c with
  | atom word => simpa [mentionsSelf] using eq_comm
  | compound ps ih =>
    simp only [mentionsSelf, anyMentionsSelf_eq_any, List.any_eq_true, words_compound,
      List.mem_flatMap]
    constructor
    · rintro ⟨p, hp, h⟩
      exact ⟨p, hp, (ih p hp).mp h⟩
    · rintro ⟨p, hp, h⟩
      exact ⟨p, hp, (ih p hp).mpr h⟩

/-- Parts without `&` behind the head denote themselves. -/
theorem resolveSelf_of_forall_tail {ps : List Concept}
    (h : ∀ p ∈ ps.tail, selfReference ∉ p.words) : resolveSelf ps = ps := by
  cases ps with
  | nil => rfl
  | cons head rest =>
    have none : anyMentionsSelf rest = false := by
      rw [anyMentionsSelf_eq_any, List.any_eq_false]
      exact fun p hp => fun m => h p hp (mentionsSelf_iff.mp m)
    rw [resolveSelf, none]
    rfl

theorem resolveSelf_of_forall {ps : List Concept} (h : ∀ p ∈ ps, selfReference ∉ p.words) :
    resolveSelf ps = ps :=
  resolveSelf_of_forall_tail fun p hp => h p (List.mem_of_mem_tail hp)

/-- Where `&` is resolved there are parts behind the head. -/
theorem resolveSelf_eq_nil_iff {ps : List Concept} : resolveSelf ps = [] ↔ ps = [] := by
  cases ps with
  | nil => exact iff_of_true rfl rfl
  | cons head rest =>
    cases rest with
    | nil => simp [resolveSelf, anyMentionsSelf]
    | cons part rest =>
      rw [resolveSelf]
      split <;> simp [replaceSelfAll]

/-! ## Clean words -/

theorem Clean.isToken_of_mem_words {c : Concept} (h : c.Clean) {word : String}
    (hw : word ∈ c.words) : Source.isToken word = true := by
  induction c with
  | atom w =>
    obtain rfl : word = w := by simpa using hw
    exact clean_atom_iff.mp h
  | compound ps ih =>
    obtain ⟨p, hp, hw⟩ : ∃ p ∈ ps, word ∈ p.words := by simpa using hw
    exact ih p hp (h.of_mem hp) hw

theorem Clean.words_ne_nil {c : Concept} (h : c.Clean) : c.words ≠ [] := by
  induction c with
  | atom word => simp
  | compound ps ih =>
    obtain ⟨p, hp⟩ := List.exists_mem_of_ne_nil ps h.ne_nil
    obtain ⟨word, hw⟩ := List.exists_mem_of_ne_nil _ (ih p hp (h.of_mem hp))
    exact List.ne_nil_of_mem (by simpa using ⟨p, hp, hw⟩)

theorem clean_setMarker : Clean (.atom setMarker) :=
  clean_atom_iff.mpr (by decide)

theorem Clean.eq_setMarker_of_key {c : Concept} (h : c.Clean) (e : c.key = setMarker) :
    c = .atom setMarker :=
  (h.key_inj clean_setMarker).mp e

/-- The key of a clean compound is no word without blanks. -/
theorem Clean.key_ne_setMarker {ps : List Concept} (h : Clean (.compound ps)) :
    key (.compound ps) ≠ setMarker := by
  intro e
  exact Concept.noConfusion (h.eq_setMarker_of_key e)

/-- Clean parts without the set marker are no set. -/
theorem key_head_ne_setMarker {head : Concept} (h : head.Clean) (none : setMarker ∉ head.words) :
    head.key ≠ setMarker := by
  cases head with
  | atom word =>
    rintro rfl
    exact none (by simp)
  | compound ps => exact h.key_ne_setMarker

end ConceptSpace.Concept
