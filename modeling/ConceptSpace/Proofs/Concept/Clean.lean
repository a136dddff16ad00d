import ConceptSpace.Proofs.Source.Words

/-!
# Clean concepts

A concept is *clean* if it is built by the constructors of compounds from words that are one token
wherever they stand. A compound among the clean concepts is just a list of at least two clean parts
that is *arranged*: behind the set marker its members are in the order of their keys
(`clean_compound_iff`).
-/

namespace ConceptSpace.Concept

/-- Induction over the parts of a concept. -/
@[elab_as_elim, induction_eliminator]
theorem induction {motive : Concept → Prop} (atom : ∀ word, motive (.atom word))
    (compound : ∀ parts, (∀ part ∈ parts, motive part) → motive (.compound parts)) (c : Concept) :
    motive c :=
  @Concept.rec motive (fun parts => ∀ part ∈ parts, motive part) atom compound (by simp)
    (fun part more hp hm => by simpa using And.intro hp hm) c

/-! ## The order of members -/

theorem keyLe_total (a b : Concept) : (keyLe a b || keyLe b a) = true := by
  simpa [keyLe] using String.le_total a.key b.key

theorem keyLe_trans (a b c : Concept) (hab : keyLe a b = true) (hbc : keyLe b c = true) :
    keyLe a c = true := by
  simp only [keyLe, decide_eq_true_eq] at *
  exact String.le_trans hab hbc

/-- Concepts that may stand in either order have the same key. -/
theorem key_eq_of_keyLe {a b : Concept} (hab : keyLe a b = true) (hba : keyLe b a = true) :
    a.key = b.key := by
  simp only [keyLe, decide_eq_true_eq] at *
  exact String.le_antisymm hab hba

/-- The parts of a compound as its constructors leave them. -/
def IsArranged : List Concept → Prop
  | [] => True
  | head :: members => head.key = setMarker → members.Pairwise (keyLe · ·)

/-- The compound of a head and members has the members in some order, in which they are
arranged. -/
theorem node_eq_compound (head : Concept) (members : List Concept) :
    ∃ placed, node head members = .compound (head :: placed) ∧ placed.Perm members ∧
      IsArranged (head :: placed) ∧ (head.key ≠ setMarker → placed = members) := by
  by_cases h : head.key = setMarker
  · refine ⟨Sequence.sortBy keyLe members, by simp [node, h], Sequence.sortBy_perm _ _, fun _ => ?_,
      fun hn => absurd h hn⟩
    exact Sequence.pairwise_sortBy keyLe_total keyLe_trans members
  · exact ⟨members, by simp [node, h], .refl _, fun he => absurd he h, fun _ => rfl⟩

theorem node_of_isArranged {head : Concept} {members : List Concept}
    (h : IsArranged (head :: members)) : node head members = .compound (head :: members) := by
  unfold node
  by_cases hk : head.key = setMarker
  · rw [Sequence.sortBy_of_pairwise (h hk)]
    simp
  · simp [hk]

theorem ofParts?_eq_none_iff {ps : List Concept} : ofParts? ps = none ↔ ps = [] := by
  match ps with
  | [] => exact iff_of_true rfl rfl
  | [_] => exact iff_of_false nofun nofun
  | _ :: _ :: _ => exact iff_of_false nofun nofun

theorem ofParts?_of_isArranged {ps : List Concept} (two : 2 ≤ ps.length) (h : IsArranged ps) :
    ofParts? ps = some (.compound ps) := by
  match ps, two with
  | head :: member :: members, _ => rw [ofParts?, node_of_isArranged h]

/-- At least two parts make a compound of these parts in some order. -/
theorem ofParts?_eq_compound (ps : List Concept) (two : 2 ≤ ps.length) :
    ∃ placed, ofParts? ps = some (.compound placed) ∧ placed.Perm ps ∧ IsArranged placed := by
  match ps, two with
  | head :: member :: members, _ =>
    obtain ⟨placed, e, perm, arranged, -⟩ := node_eq_compound head (member :: members)
    exact ⟨head :: placed, by rw [ofParts?, e], perm.cons head, arranged⟩

/-! ## Clean concepts -/

/-- The concepts that the constructors of compounds build from words that are one token. -/
inductive Clean : Concept → Prop where
  /-- A word. -/
  | atom {word : String} (h : Source.isToken word = true) : Clean (.atom word)
  /-- The concept made of parts; a single part stands for itself. -/
  | ofParts {ps : List Concept} {c : Concept} (parts : ∀ p ∈ ps, Clean p)
    (h : ofParts? ps = some c) : Clean c
  /-- The compound of two parts. -/
  | pair {head tail : Concept} (hh : Clean head) (ht : Clean tail) : Clean (.pair head tail)

theorem clean_atom_iff {word : String} : Clean (.atom word) ↔ Source.isToken word = true := by
  constructor
  · intro h
    generalize e : Concept.atom word = c at h
    induction h with
    | atom h => exact Concept.atom.inj e ▸ h
    | @ofParts ps c _ h ih =>
      subst e
      match ps, h with
      | [p], h => exact ih p (by simp) (Option.some.inj h).symm
    | pair => simp [pair, node] at e
  · exact .atom

/-- The clean compounds are the arranged lists of at least two clean parts. -/
theorem clean_compound_iff {ps : List Concept} :
    Clean (.compound ps) ↔ 2 ≤ ps.length ∧ (∀ p ∈ ps, Clean p) ∧ IsArranged ps := by
  constructor
  · intro h
    generalize e : Concept.compound ps = c at h
    induction h with
    | atom => simp at e
    | @ofParts qs c hq h ih =>
      subst e
      match qs, h with
      | [q], h => exact ih q (by simp) (Option.some.inj h).symm
      | head :: member :: members, h =>
        obtain ⟨placed, e, perm, arranged⟩ :=
          ofParts?_eq_compound (head :: member :: members) (by simp)
        obtain rfl : placed = ps := by simpa [e] using h
        exact ⟨by simp [perm.length_eq], fun p hp => hq p (perm.mem_iff.mp hp), arranged⟩
    | @pair head tail hh ht =>
      obtain ⟨placed, e', perm, arranged, -⟩ := node_eq_compound head [tail]
      obtain rfl : placed = [tail] := List.perm_singleton.mp perm
      obtain rfl : ps = [head, tail] := Concept.compound.inj (e.trans e')
      exact ⟨by simp, by simp [hh, ht], arranged⟩
  · rintro ⟨two, parts, arranged⟩
    exact .ofParts parts (ofParts?_of_isArranged two arranged)

namespace Clean

variable {c : Concept} {ps : List Concept}

theorem two_le_length (h : Clean (.compound ps)) : 2 ≤ ps.length :=
  (clean_compound_iff.mp h).1

theorem of_mem (h : Clean (.compound ps)) {p : Concept} (hp : p ∈ ps) : Clean p :=
  (clean_compound_iff.mp h).2.1 p hp

theorem isArranged (h : Clean (.compound ps)) : IsArranged ps :=
  (clean_compound_iff.mp h).2.2

theorem ofParts?_eq (h : Clean (.compound ps)) : ofParts? ps = some (.compound ps) :=
  ofParts?_of_isArranged h.two_le_length h.isArranged

theorem of_mem_parts (h : Clean c) {p : Concept} (hp : p ∈ c.parts) : Clean p := by
  cases c with
  | atom word => simp at hp
  | compound ps => exact h.of_mem hp

end Clean

/-! ## Deciding it -/

instance : DecidablePred IsArranged
  | [] => .isTrue trivial
  | head :: members =>
    inferInstanceAs (Decidable (head.key = setMarker → members.Pairwise (keyLe · ·)))

mutual

/-- Whether a concept is clean is decidable. -/
def decClean : (c : Concept) → Decidable c.Clean
  | .atom _ => decidable_of_iff _ clean_atom_iff.symm
  | .compound ps =>
    match decCleanAll ps with
    | .isTrue parts =>
      decidable_of_iff (2 ≤ ps.length ∧ IsArranged ps)
        ⟨fun h => clean_compound_iff.mpr ⟨h.1, parts, h.2⟩,
          fun h => ⟨h.two_le_length, h.isArranged⟩⟩
    | .isFalse parts => .isFalse fun h => parts fun _ => h.of_mem

/-- Whether several concepts are clean is decidable. -/
def decCleanAll : (cs : List Concept) → Decidable (∀ c ∈ cs, c.Clean)
  | [] => .isTrue (by simp)
  | c :: cs =>
    match decClean c, decCleanAll cs with
    | .isTrue h, .isTrue t => .isTrue (by simpa using And.intro h t)
    | .isFalse h, _ => .isFalse fun all => h (all c (by simp))
    | _, .isFalse t => .isFalse fun all => t fun d hd => all d (by simp [hd])

end

instance : DecidablePred Clean := decClean

end ConceptSpace.Concept
