import ConceptSpace.Proofs.Sequence.Distinct
import ConceptSpace.Proofs.Source.Coverage

/-!
# Alternations and the rest of their branch

When a branch is read, the sequences at hand are continued together. They are the same as if each
had been continued on its own (`mem_readNodes_append_iff`), as long as no block asks for all of them
what it should ask for each: a nested block keeps what is stated aside in it if one of the last parts
is a directive, and passes it on if one is none. Behind an alternation this shows if only one of
the alternatives ends in a directive and the block comes first (`scopesAsides`). Otherwise an
alternation distributes over the rest of its branch (`mem_readNodes_alternation_iff`).
-/

namespace ConceptSpace.Source

/-- Whether it matters to a branch if it stands behind a directive: a nested block that states
something aside comes first. Blocks that continue nothing may stand in front of it. -/
def scopesAsides : List Node → Bool
  | [] => false
  | .atom _ :: _ => false
  | .block bracket branches :: nodes =>
    let readings := readBranches branches
    (bracket == .nested && !(Reading.asides readings).isEmpty) ||
      ((bracket.continuations [] readings).isEmpty && scopesAsides nodes)

/-! ## The last parts of sequences -/

namespace Reading

variable {first second sequences continuations : List (List Concept)}

theorem tails_eq_nil_of_eq_nil (none : sequences = []) : tails sequences = [] := by
  subst none
  rfl

theorem combine_append (hf : first ≠ []) (hs : second ≠ []) :
    combine (first ++ second) continuations =
      combine first continuations ++ combine second continuations := by
  by_cases none : continuations = []
  · simp [combine, none]
  · rw [combine_of_ne_nil (by simp [hf]) none, combine_of_ne_nil hf none,
      combine_of_ne_nil hs none, List.flatMap_append]

/-- Continued sequences end as the continuations do. -/
theorem tails_combine (hs : sequences ≠ []) (offered : continuations ≠ [])
    (filled : [] ∉ continuations) : tails (combine sequences continuations) = tails continuations := by
  have last : ∀ left : List Concept, (continuations.map (left ++ ·)).filterMap List.getLast? =
      continuations.filterMap List.getLast? := by
    intro left
    rw [List.filterMap_map]
    refine List.filterMap_congr fun right hr => ?_
    have nonempty : right ≠ [] := fun empty => filled (empty ▸ hr)
    exact List.getLast?_append_of_ne_nil left nonempty
  rw [tails, tails, combine_of_ne_nil hs offered, List.filterMap_flatMap]
  simp only [last]
  -- The same last parts come once for each sequence.
  induction sequences with
  | nil => exact absurd rfl hs
  | cons left sequences ih =>
    rw [List.flatMap_cons]
    refine Sequence.distinctBy_append_of_subset fun c hc => List.mem_map_of_mem ?_
    obtain ⟨_, -, hc⟩ := List.mem_flatMap.mp hc
    exact hc

theorem tails_ne_nil (offered : continuations ≠ []) (filled : [] ∉ continuations) :
    tails continuations ≠ [] := by
  rw [tails, ne_eq, Concept.distinct_eq_nil_iff, List.filterMap_eq_nil_iff]
  intro none
  obtain ⟨right, hr⟩ := List.exists_mem_of_ne_nil _ offered
  exact filled (List.getLast?_eq_none_iff.mp (none right hr) ▸ hr)

/-- Sequences that can be read on together: their last parts are those of both. -/
structure Joins (first second : List (List Concept)) : Prop where
  left : tails first ≠ []
  right : tails second ≠ []
  mem_iff : ∀ c, c ∈ tails (first ++ second) ↔ c ∈ tails first ∨ c ∈ tails second

/-- Behind both sequences there is a directive, or behind none, and the same for other parts. -/
def ScopeAlike (first second : List (List Concept)) : Prop :=
  (tails first).any (·.isDirective) = (tails second).any (·.isDirective) ∧
    (tails first).any (!·.isDirective) = (tails second).any (!·.isDirective)

namespace Joins

theorem any_tails (h : Joins first second) (p : Concept → Bool) :
    (tails (first ++ second)).any p = ((tails first).any p || (tails second).any p) := by
  rw [Bool.eq_iff_iff, Bool.or_eq_true, List.any_eq_true, List.any_eq_true, List.any_eq_true]
  simp only [h.mem_iff, or_and_right, exists_or]

theorem ne_nil (h : Joins first second) : first ≠ [] ∧ second ≠ [] :=
  ⟨fun none => h.left (tails_eq_nil_of_eq_nil none),
    fun none => h.right (tails_eq_nil_of_eq_nil none)⟩

theorem append_ne_nil (h : Joins first second) : tails (first ++ second) ≠ [] := by
  obtain ⟨c, hc⟩ := List.exists_mem_of_ne_nil _ h.left
  exact List.ne_nil_of_mem ((h.mem_iff c).mpr (.inl hc))

/-- Once they have been continued, both end in the same parts. -/
theorem combine (h : Joins first second) (offered : continuations ≠ [])
    (filled : [] ∉ continuations) :
    Joins (Reading.combine first continuations) (Reading.combine second continuations) ∧
      ScopeAlike (Reading.combine first continuations) (Reading.combine second continuations) := by
  obtain ⟨hf, hs⟩ := h.ne_nil
  have some := tails_ne_nil offered filled
  have left := tails_combine hf offered filled
  have right := tails_combine hs offered filled
  have both := tails_combine (List.append_ne_nil_of_left_ne_nil hf second) offered filled
  rw [combine_append hf hs] at both
  refine ⟨⟨by rwa [left], by rwa [right], fun c => ?_⟩, ?_⟩
  · rw [both, left, right, or_self]
  · rw [ScopeAlike, left, right]
    exact ⟨rfl, rfl⟩

end Joins

end Reading

open Reading (Joins ScopeAlike)

/-! ## One block -/

section Block

variable {bracket : Bracket} {readings : List Reading} {first second : List (List Concept)}

/-- How a block continues sequences depends on their last parts only if it is nested and states
something aside. -/
theorem continuations_congr {tails others : List Concept}
    (same : bracket = .nested → tails.any (·.isDirective) = others.any (·.isDirective) ∨
      Reading.asides readings = []) :
    bracket.continuations tails readings = bracket.continuations others readings := by
  cases bracket with
  | inline => rfl
  | parenthetical => rfl
  | nested =>
    unfold Bracket.continuations
    rcases same rfl with same | none
    · simp only [same]
    · simp only [none, ite_self]

/-- Joined sequences and each of them are continued in the same way. -/
theorem continuations_of_joins (h : Joins first second)
    (alike : bracket = .nested → ScopeAlike first second ∨ Reading.asides readings = []) :
    bracket.continuations (Reading.tails (first ++ second)) readings =
        bracket.continuations (Reading.tails first) readings ∧
      bracket.continuations (Reading.tails second) readings =
        bracket.continuations (Reading.tails first) readings := by
  refine ⟨continuations_congr fun nested => (alike nested).imp_left ?_,
    continuations_congr fun nested => (alike nested).imp_left ?_⟩
  · rintro ⟨same, -⟩
    rw [h.any_tails, same, Bool.or_self]
  · rintro ⟨same, -⟩
    exact same.symm

/-- What a block states aside behind joined sequences it states behind one of them. -/
theorem mem_statedAside_append_iff (h : Joins first second)
    (alike : bracket = .nested → ScopeAlike first second ∨ Reading.asides readings = [])
    {parts : List Concept} :
    parts ∈ bracket.statedAside (Reading.tails (first ++ second)) readings ↔
      parts ∈ bracket.statedAside (Reading.tails first) readings ∨
        parts ∈ bracket.statedAside (Reading.tails second) readings := by
  cases bracket with
  | inline => exact (or_self _).symm.to_iff
  | nested =>
    simp only [Bracket.statedAside, List.isEmpty_eq_false_iff.mpr h.append_ne_nil,
      List.isEmpty_eq_false_iff.mpr h.left, List.isEmpty_eq_false_iff.mpr h.right, Bool.false_or,
      h.any_tails]
    rcases alike rfl with ⟨-, same⟩ | none
    · rw [same, Bool.or_self, or_self]
    · simp [none]
  | parenthetical =>
    simp only [Bracket.statedAside, List.isEmpty_eq_false_iff.mpr h.append_ne_nil,
      List.isEmpty_eq_false_iff.mpr h.left, List.isEmpty_eq_false_iff.mpr h.right]
    simp only [Bool.false_eq_true, if_false, List.mem_append, List.mem_flatMap, List.mem_map,
      h.mem_iff]
    constructor
    · rintro (⟨right, hr, c, hc | hc, made⟩ | aside)
      · exact .inl (.inl ⟨right, hr, c, hc, made⟩)
      · exact .inr (.inl ⟨right, hr, c, hc, made⟩)
      · exact .inl (.inr aside)
    · rintro ((⟨right, hr, c, hc, made⟩ | aside) | (⟨right, hr, c, hc, made⟩ | aside))
      · exact .inl ⟨right, hr, c, .inl hc, made⟩
      · exact .inr aside
      · exact .inl ⟨right, hr, c, .inr hc, made⟩
      · exact .inr aside

end Block

/-! ## The rest of a branch -/

section Scopes

variable {bracket : Bracket} {branches : List Branch} {nodes : Branch}

theorem asides_eq_nil_of_scopesAsides (plain : scopesAsides (.block bracket branches :: nodes) = false)
    (nested : bracket = .nested) : Reading.asides (readBranches branches) = [] := by
  subst nested
  simp only [scopesAsides, Bool.or_eq_false_iff] at plain
  simpa using plain.1

/-- Where a block continues nothing, the nodes behind it are in its place. -/
theorem scopesAsides_of_cons (plain : scopesAsides (.block bracket branches :: nodes) = false)
    {tails : List Concept} (none : bracket.continuations tails (readBranches branches) = []) :
    scopesAsides nodes = false := by
  have silent : bracket.continuations [] (readBranches branches) = [] := by
    rw [← none]
    exact continuations_congr fun nested => .inr (asides_eq_nil_of_scopesAsides plain nested)
  simp only [scopesAsides, Bool.or_eq_false_iff] at plain
  simpa [silent] using plain.2

end Scopes

/-- Sequences that are read on together say what they say when each is read on by itself. -/
theorem mem_readNodes_append_iff {nodes : Branch} {first second : List (List Concept)}
    (h : Joins first second) (alike : ScopeAlike first second ∨ scopesAsides nodes = false)
    {reading : Reading} :
    reading ∈ readNodes nodes (first ++ second) ↔
      reading ∈ readNodes nodes first ∨ reading ∈ readNodes nodes second := by
  induction nodes generalizing first second with
  | nil =>
    simp only [readNodes, List.map_append, List.mem_append]
  | cons node nodes ih =>
    obtain ⟨hf, hs⟩ := h.ne_nil
    cases node with
    | atom word =>
      have offered : ([[.atom word]] : List (List Concept)) ≠ [] := by simp
      obtain ⟨joins, same⟩ := h.combine offered (by simp)
      simp only [readNodes]
      rw [Reading.combine_append hf hs]
      exact ih joins (.inl same)
    | block bracket branches =>
      have scoping : bracket = .nested →
          ScopeAlike first second ∨ Reading.asides (readBranches branches) = [] :=
        fun nested => alike.imp_right fun plain => asides_eq_nil_of_scopesAsides plain nested
      obtain ⟨joint, right⟩ := continuations_of_joins h scoping
      simp only [readNodes]
      rw [joint, right, Reading.combine_append hf hs]
      generalize ways : bracket.continuations (Reading.tails first) (readBranches branches) =
        continuations
      have rest : reading ∈ readNodes nodes
            (Reading.combine first continuations ++ Reading.combine second continuations) ↔
          reading ∈ readNodes nodes (Reading.combine first continuations) ∨
            reading ∈ readNodes nodes (Reading.combine second continuations) := by
        by_cases none : continuations = []
        · have plain : ScopeAlike first second ∨ scopesAsides nodes = false :=
            alike.imp_right fun plain => scopesAsides_of_cons plain (ways.trans none)
          simpa [Reading.combine, none] using ih h plain
        · have filled : [] ∉ continuations :=
            ways ▸ nil_notMem_continuations (nil_notMem_readBranches branches) bracket _
          obtain ⟨joins, same⟩ := h.combine none filled
          exact ih joins (.inl same)
      simp only [List.mem_append, List.mem_map, mem_statedAside_append_iff h scoping, rest]
      constructor
      · rintro (⟨parts, hl | hr, made⟩ | hl | hr)
        · exact .inl (.inl ⟨parts, hl, made⟩)
        · exact .inr (.inl ⟨parts, hr, made⟩)
        · exact .inl (.inr hl)
        · exact .inr (.inr hr)
      · rintro ((⟨parts, hl, made⟩ | hl) | (⟨parts, hr, made⟩ | hr))
        · exact .inl ⟨parts, .inl hl, made⟩
        · exact .inr (.inl hl)
        · exact .inl ⟨parts, .inr hr, made⟩
        · exact .inr (.inr hr)

/-! ## Alternations of words -/

/-- The sequence of parts that words make. -/
def wordParts (words : List String) : List Concept :=
  words.map .atom

theorem readNodes_words_append (words : List String) (nodes : Branch) (parts : List Concept) :
    readNodes (words.map .atom ++ nodes) [parts] = readNodes nodes [parts ++ wordParts words] := by
  induction words generalizing parts with
  | nil => simp [wordParts]
  | cons word words ih =>
    rw [List.map_cons, List.cons_append, readNodes]
    refine (ih (parts ++ [.atom word])).trans ?_
    rw [List.append_assoc]
    rfl

variable {p q : List String}

theorem readNodes_words (hp : p ≠ []) (nodes : Branch) :
    readNodes (p.map .atom ++ nodes) [] = readNodes nodes [wordParts p] := by
  obtain ⟨word, words, rfl⟩ := List.exists_cons_of_ne_nil hp
  rw [List.map_cons, List.cons_append, readNodes]
  exact readNodes_words_append words nodes [.atom word]

theorem tails_wordParts (hp : p ≠ []) :
    Reading.tails [wordParts p] = [.atom (p.getLast hp)] := by
  have last : (wordParts p).getLast? = some (.atom (p.getLast hp)) := by
    rw [wordParts, List.getLast?_map, List.getLast?_eq_some_getLast hp]
    rfl
  rw [Reading.tails, List.filterMap_cons_some last]
  rfl

theorem joins_wordParts (hp : p ≠ []) (hq : q ≠ []) : Joins [wordParts p] [wordParts q] := by
  have left := tails_wordParts hp
  have right := tails_wordParts hq
  refine ⟨by simp [left], by simp [right], fun c => ?_⟩
  have ends : [wordParts p, wordParts q].filterMap List.getLast? =
      [.atom (p.getLast hp), .atom (q.getLast hq)] := by
    simp [wordParts, List.getLast?_eq_some_getLast, hp, hq]
  rw [left, right, List.singleton_append, Reading.tails, ends, Concept.mem_distinct_of_key_inj]
  · simp
  · simp

theorem scopeAlike_wordParts (hp : p ≠ []) (hq : q ≠ [])
    (same : Concept.startsWith '@' (p.getLast hp) = Concept.startsWith '@' (q.getLast hq)) :
    ScopeAlike [wordParts p] [wordParts q] := by
  rw [ScopeAlike, tails_wordParts hp, tails_wordParts hq]
  simp [Concept.isDirective, same]

/-- An alternation of words says what each alternative says in its place. The alternatives have to
be alike in whether a directive ends them, or what comes behind must not depend on it. -/
theorem mem_readNodes_alternation_iff (hp : p ≠ []) (hq : q ≠ []) {nodes : Branch}
    (alike : Concept.startsWith '@' (p.getLast hp) = Concept.startsWith '@' (q.getLast hq) ∨
      scopesAsides nodes = false) (reading : Reading) :
    reading ∈ readNodes (.block .inline [p.map .atom, q.map .atom] :: nodes) [] ↔
      reading ∈ readNodes (p.map .atom ++ nodes) [] ∨
        reading ∈ readNodes (q.map .atom ++ nodes) [] := by
  have alone : ∀ words : List String, words ≠ [] →
      readNodes (words.map .atom) [] = [⟨wordParts words, false⟩] := by
    intro words some
    have read := readNodes_words some []
    rwa [List.append_nil, readNodes] at read
  have opened : readNodes (.block .inline [p.map .atom, q.map .atom] :: nodes) [] =
      readNodes nodes ([wordParts p] ++ [wordParts q]) := by
    simp only [readNodes, readBranches, alone p hp, alone q hq]
    rfl
  rw [opened, readNodes_words hp, readNodes_words hq]
  exact mem_readNodes_append_iff (joins_wordParts hp hq)
    (alike.imp_left (scopeAlike_wordParts hp hq))

/-- A block with a fact stated aside. -/
private def noted : Branch :=
  [.block .nested [[.atom "x", .block .parenthetical [[.atom "y"]]]]]

theorem componentsAlternation_distributes :
    (⟨[.atom "u", .atom "@removes", .compound [.atom "x", .atom "y"]], false⟩ : Reading) ∈
      readNodes (.block .inline [["t", "@adds"].map .atom, ["u", "@removes"].map .atom] :: noted) [] :=
  (mem_readNodes_alternation_iff (p := ["t", "@adds"]) (q := ["u", "@removes"]) (by decide)
    (by decide) (.inl (by decide)) _).mpr (.inr (by decide +kernel))

private def mixedText : String := "\x7b@d, a\x7d [x (y)]"

private def mixedTokens : List Token :=
  [⟨.opening .inline, "\x7b", 0⟩, ⟨.atom, "@d", 1⟩, ⟨.branch, ", ", 3⟩, ⟨.atom, "a", 5⟩,
    ⟨.closing .inline, "\x7d", 6⟩, ⟨.spaces, " ", 7⟩, ⟨.opening .nested, "[", 8⟩, ⟨.atom, "x", 9⟩,
    ⟨.spaces, " ", 10⟩, ⟨.opening .parenthetical, "(", 11⟩, ⟨.atom, "y", 12⟩,
    ⟨.closing .parenthetical, ")", 13⟩, ⟨.closing .nested, "]", 14⟩]

/-- What is stated aside for the directive alone stands behind the other alternative, too. -/
theorem mixedAlternation_not_distributes :
    tokenize mixedText = .ok mixedTokens ∧
      outline mixedText mixedTokens =
        .ok ⟨.inline, [.block .inline [["@d"].map .atom, ["a"].map .atom] :: noted]⟩ ∧
      ¬ ∀ reading : Reading,
        reading ∈ readNodes (.block .inline [["@d"].map .atom, ["a"].map .atom] :: noted) [] ↔
          reading ∈ readNodes (["@d"].map .atom ++ noted) [] ∨
            reading ∈ readNodes (["a"].map .atom ++ noted) [] := by
  refine ⟨by decide +kernel, rfl, fun distributes => ?_⟩
  have escaped := (distributes ⟨[.atom "a", .compound [.atom "x", .atom "y"]], false⟩).mp
    (by decide +kernel)
  exact absurd escaped (by decide +kernel)

end ConceptSpace.Source
