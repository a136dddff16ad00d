import ConceptSpace.Proofs.Concept.Inside
import ConceptSpace.Proofs.Pattern.Instance

/-!
# Substitution through source text

Values are put into concepts by writing source text and reading it again. The text of clean concepts
with clean values spells an outline of the words of both (`Clean.spellsBranches_filled`). If `&` is
in none of them, what is read are the *fillings* of the concepts, each of them once
(`substitute_eq_fillings`); with bindings for values these are the instances (`substitute_eq`).
-/

namespace ConceptSpace

open Source (Spells SpellsBranches States)

namespace Bindings

variable {b : Bindings} {word : String} {value : Concept}

theorem mem_values_iff : value ∈ b.values word ↔ b[word]? = some value := by
  simp [values]

theorem values_of_some (e : b[word]? = some value) : b.values word = [value] := by
  simp [values, e]

theorem values_of_none (e : b[word]? = none) : b.values word = [] := by
  simp [values, e]

end Bindings

namespace Source

/-- Texts with commas or newlines between them spell a branch each. -/
theorem spellsBranches_intercalate {α : Type} {text : α → String} {branch : α → Branch}
    (separator : String) (sep : Char) (hs : separator.toList = [sep])
    (hb : Token.isBreak sep = true) {l : List α} (nonempty : l ≠ [])
    (h : ∀ a ∈ l, Spells (text a).toList (branch a) ∧ branch a ≠ []) :
    SpellsBranches (separator.intercalate (l.map text)).toList (l.map branch) := by
  rw [String.toList_intercalate, List.map_map, hs]
  induction l with
  | nil => exact absurd rfl nonempty
  | cons a l ih =>
    obtain ⟨spells, branches⟩ := h a (by simp)
    cases l with
    | nil => simpa using spells.branch branches
    | cons d l =>
      have rest := ih (by simp) fun e he => h e (List.mem_cons_of_mem a he)
      simpa using spells.cons branches hb rest

end Source

namespace Concept

/-! ## The outline of the text -/

mutual

/-- The branch that a concept with values put in is read from. -/
def filledBranch (values : Values) : Concept → Source.Branch
  | .atom word =>
    if startsWith '$' word then
      match values word with
      | [] => [.atom word]
      | found => [.block .nested (found.map toBranch)]
    else [.atom word]
  | .compound parts => filledNodes values parts

/-- The nodes that parts with values put in are read from. -/
def filledNodes (values : Values) : List Concept → List Source.Node
  | [] => []
  | part :: more => .block .nested [filledBranch values part] :: filledNodes values more

end

variable {values : Values} {b : Bindings} {c : Concept} {ps : List Concept}

theorem filledNodes_eq_map (values : Values) (cs : List Concept) :
    filledNodes values cs = cs.map fun c => .block .nested [filledBranch values c] := by
  induction cs with
  | nil => rfl
  | cons c cs ih => simp [filledNodes, ih]

/-- Words that are no variables with values are written as they are. -/
theorem filled_atom_of_free {word : String}
    (h : startsWith '$' word = true → values word = []) :
    (atom word).filled values = word ∧ filledBranch values (.atom word) = [.atom word] := by
  by_cases hv : startsWith '$' word = true
  · simp [filled, filledBranch, hv, h hv]
  · simp [filled, filledBranch, hv]

/-- A variable with values is written as a block of them. -/
theorem filled_atom_of_bound {word : String} (hv : startsWith '$' word = true)
    (h : values word ≠ []) :
    (atom word).filled values = "[" ++ ",".intercalate ((values word).map key) ++ "]" ∧
      filledBranch values (.atom word) = [.block .nested ((values word).map toBranch)] := by
  cases e : values word with
  | nil => exact absurd e h
  | cons value more => simp [filled, filledBranch, hv, e]

theorem filledBranch_ne_nil (h : c.Clean) : filledBranch values c ≠ [] := by
  cases c with
  | atom word =>
    unfold filledBranch
    split
    · split <;> simp
    · simp
  | compound ps => simpa [filledBranch, filledNodes_eq_map] using h.ne_nil

/-- Parts in brackets, with blanks between them, spell their nodes. -/
theorem spells_filledParts (nonempty : ps ≠ [])
    (h : ∀ p ∈ ps, Spells ("[" ++ p.filled values ++ "]").toList
      [.block .nested [filledBranch values p]]) :
    Spells (filledParts values ps).toList (filledNodes values ps) := by
  induction ps with
  | nil => exact absurd rfl nonempty
  | cons p ps ih =>
    have first := h p (by simp)
    cases ps with
    | nil =>
      rw [filledParts, ← String.append_assoc]
      exact first
    | cons q ps =>
      have rest := ih (by simp) fun r hr => h r (List.mem_cons_of_mem p hr)
      have e : (filledParts values (p :: q :: ps)).toList =
          ("[" ++ p.filled values ++ "]").toList ++
            ' ' :: (filledParts values (q :: ps)).toList := by
        simp [filledParts]
      rw [e]
      exact first.append rest

/-- The text of a clean concept with clean values put in spells its branch. -/
theorem Clean.spells_filled (h : c.Clean) (clean : ∀ name, ∀ value ∈ values name, value.Clean) :
    Spells (c.filled values).toList (filledBranch values c) := by
  induction c with
  | atom word =>
    by_cases free : startsWith '$' word = true → values word = []
    · obtain ⟨text, nodes⟩ := filled_atom_of_free free
      rw [text, nodes]
      exact Spells.word (clean_atom_iff.mp h)
    · obtain ⟨hv, bound⟩ := Classical.not_imp.mp free
      obtain ⟨text, nodes⟩ := filled_atom_of_bound hv bound
      have brackets : ("[" ++ ",".intercalate ((values word).map key) ++ "]").toList =
          '[' :: ((",".intercalate ((values word).map key)).toList ++ [']']) := by
        simp
      have inner := Source.spellsBranches_intercalate "," ',' rfl rfl bound fun value hm =>
        ⟨(clean word value hm).spells_key, toBranch_ne_nil (clean word value hm)⟩
      rw [text, nodes, brackets]
      exact inner.nested (by simpa using bound)
  | compound ps ih =>
    rw [filled, filledBranch]
    refine spells_filledParts h.ne_nil fun p hp => ?_
    have brackets : ("[" ++ p.filled values ++ "]").toList =
        '[' :: ((p.filled values).toList ++ [']']) := by
      simp
    rw [brackets]
    exact ((ih p hp (h.of_mem hp)).branch (filledBranch_ne_nil (h.of_mem hp))).nested (by simp)

/-- The text of clean concepts with clean values put in spells their branches. -/
theorem Clean.spellsBranches_filled {cs : List Concept} (nonempty : cs ≠ [])
    (hc : ∀ c ∈ cs, c.Clean) (clean : ∀ name, ∀ value ∈ values name, value.Clean) :
    SpellsBranches (Source.filled values cs).toList (cs.map (filledBranch values)) :=
  Source.spellsBranches_intercalate "," ',' rfl rfl nonempty fun c h =>
    ⟨(hc c h).spells_filled clean, filledBranch_ne_nil (hc c h)⟩

/-! ## Fillings -/

mutual

/-- What a concept becomes when values are put in for its variables: one concept for each choice of
a value at each place of a variable that has values. Sets are put in order again. -/
def fillings (values : Values) : Concept → List Concept
  | .atom word =>
    if startsWith '$' word then
      match values word with
      | [] => [.atom word]
      | found => found
    else [.atom word]
  | .compound parts => (Sequence.choices (allFillings values parts)).filterMap ofParts?

/-- The fillings of each of several concepts. -/
def allFillings (values : Values) : List Concept → List (List Concept)
  | [] => []
  | part :: more => fillings values part :: allFillings values more

end

theorem allFillings_eq_map (values : Values) (cs : List Concept) :
    allFillings values cs = cs.map (fillings values) := by
  induction cs with
  | nil => rfl
  | cons c cs ih => simp [allFillings, ih]

theorem fillings_compound (values : Values) (ps : List Concept) :
    (compound ps).fillings values =
      (Sequence.choices (ps.map (fillings values))).filterMap ofParts? := by
  rw [fillings, allFillings_eq_map]

theorem fillings_atom_of_free {word : String}
    (h : startsWith '$' word = true → values word = []) :
    (atom word).fillings values = [.atom word] := by
  by_cases hv : startsWith '$' word = true
  · simp [fillings, hv, h hv]
  · simp [fillings, hv]

theorem fillings_atom_of_bound {word : String} (hv : startsWith '$' word = true)
    (h : values word ≠ []) : (atom word).fillings values = values word := by
  cases e : values word with
  | nil => exact absurd e h
  | cons value more => simp [fillings, hv, e]

/-- Every concept has a filling. -/
theorem Clean.fillings_ne_nil (h : c.Clean) : c.fillings values ≠ [] := by
  induction c with
  | atom word =>
    by_cases free : startsWith '$' word = true → values word = []
    · simp [fillings_atom_of_free free]
    · obtain ⟨hv, bound⟩ := Classical.not_imp.mp free
      rwa [fillings_atom_of_bound hv bound]
  | compound ps ih =>
    have some : Sequence.choices (ps.map (fillings values)) ≠ [] :=
      Sequence.choices_ne_nil <| by simpa using fun p hp => ih p hp (h.of_mem hp)
    obtain ⟨parts, hm⟩ := List.exists_mem_of_ne_nil _ some
    have two : 2 ≤ parts.length := by
      simpa [Sequence.length_of_mem_choices hm] using h.two_le_length
    obtain ⟨placed, made, -, -⟩ := ofParts?_eq_compound parts two
    rw [fillings_compound]
    exact List.ne_nil_of_mem (List.mem_filterMap.mpr ⟨parts, hm, made⟩)

/-- Bindings leave one filling, the instance. -/
theorem Clean.fillings_values (h : c.Clean) : c.fillings b.values = [c.instantiate b] := by
  induction c with
  | atom word =>
    by_cases free : startsWith '$' word = true → b[word]? = none
    · have same : (Concept.atom word).instantiate b = .atom word := by
        by_cases hv : startsWith '$' word = true
        · simp [Concept.instantiate, hv, free hv]
        · simp [Concept.instantiate, hv]
      rw [fillings_atom_of_free fun hv => Bindings.values_of_none (free hv), same]
    · obtain ⟨hv, bound⟩ := Classical.not_imp.mp free
      obtain ⟨value, e⟩ := Option.ne_none_iff_exists'.mp bound
      have values := Bindings.values_of_some e
      rw [fillings_atom_of_bound hv (by simp [values]), values, instantiate_atom_of_bound hv e]
  | compound ps ih =>
    have each : ps.map (fillings b.values) = (ps.map (Concept.instantiate b)).map ([·]) := by
      rw [List.map_map]
      exact List.map_congr_left fun p hp => ih p hp (h.of_mem hp)
    obtain ⟨placed, made, -, -⟩ :=
      ofParts?_eq_compound (ps.map (Concept.instantiate b)) (by simpa using h.two_le_length)
    rw [fillings_compound, each, Sequence.choices_map_singleton, instantiate_compound]
    simp [made]

/-! ## Reading it -/

/-- A block of clean concepts offers the concepts. -/
theorem offers_toBranch {cs : List Concept} (nonempty : cs ≠ []) (clean : ∀ c ∈ cs, c.Clean) :
    Source.Node.Offers (.block .nested (cs.map toBranch)) cs := by
  choose! parts stated made using fun c h => (clean c h).states_toBranch
  refine ⟨rfl, nonempty, cs.map parts, Source.readBranches_of_states ?_, ?_⟩
  · rw [List.forall₂_map_left_iff, List.forall₂_map_right_iff, List.forall₂_same]
    exact stated
  · rw [List.filterMap_map]
    exact (List.filterMap_congr made).trans List.filterMap_some

/-- The branch of a clean concept with clean values put in has readings that make the fillings and
state nothing aside; none of their parts has a word that neither the concept nor the values have. -/
theorem Clean.exists_readings_filledBranch (h : c.Clean)
    (clean : ∀ name, ∀ value ∈ values name, value.Clean) {word : String} (none : word ∉ c.words)
    (noneInserted : ∀ name, ∀ value ∈ values name, word ∉ value.words) :
    ∃ sequences : List (List Concept),
      Source.readNodes (filledBranch values c) [] = sequences.map (⟨·, false⟩) ∧
        sequences.filterMap ofParts? = c.fillings values ∧
          ∀ parts ∈ sequences, ∀ p ∈ parts, word ∉ p.words := by
  induction c with
  | atom w =>
    by_cases free : startsWith '$' w = true → values w = []
    · have offers : List.Forall₂ Source.Node.Offers [.atom w] [[.atom w]] := .cons rfl .nil
      rw [(filled_atom_of_free free).2, fillings_atom_of_free free]
      exact ⟨[[.atom w]], Source.readNodes_nil_of_offers offers (by simp), rfl, by simpa using none⟩
    · obtain ⟨hv, bound⟩ := Classical.not_imp.mp free
      have offers := offers_toBranch bound (clean w)
      rw [(filled_atom_of_bound hv bound).2, fillings_atom_of_bound hv bound]
      refine ⟨(values w).map ([·]), ?_, ?_, ?_⟩
      · rw [Source.readNodes_nil_of_offers (.cons offers .nil) (by simp),
          Sequence.choices_singleton]
      · rw [List.filterMap_map]
        exact List.filterMap_some
      · simpa using noneInserted w
  | compound ps ih =>
    have noneInner : ∀ p ∈ ps, word ∉ p.words := fun p hp m =>
      none (mem_words_of_mem_parts (c := .compound ps) hp m)
    have offers : List.Forall₂ Source.Node.Offers (filledNodes values ps)
        (ps.map (fillings values)) := by
      rw [filledNodes_eq_map, List.forall₂_map_left_iff, List.forall₂_map_right_iff,
        List.forall₂_same]
      intro p hp
      obtain ⟨sequences, read, made, -⟩ := ih p hp (h.of_mem hp) (noneInner p hp)
      exact ⟨rfl, (h.of_mem hp).fillings_ne_nil, sequences,
        by simp [Source.readBranches, read], made⟩
    refine ⟨Sequence.choices (ps.map (fillings values)), ?_, (fillings_compound values ps).symm,
      fun parts hm q hq => ?_⟩
    · exact Source.readNodes_nil_of_offers offers (filledBranch_ne_nil h)
    · obtain ⟨found, hf, hq⟩ := Sequence.exists_of_mem_choices hm hq
      obtain ⟨p, hp, rfl⟩ := List.mem_map.mp hf
      obtain ⟨sequences, -, made, clear⟩ := ih p hp (h.of_mem hp) (noneInner p hp)
      obtain ⟨inner, hi, made⟩ := List.mem_filterMap.mp (made ▸ hq)
      simpa [(words_perm_of_ofParts? made).mem_iff] using clear inner hi

end Concept

namespace Concept

/-! ## Self-reference in readings -/

/-- Resolving `&` changes concepts, but not how many there are. -/
theorem length_filterMap_resolveSelf (sequences : List (List Concept)) :
    ((sequences.map resolveSelf).filterMap ofParts?).length =
      (sequences.filterMap ofParts?).length := by
  have same : ∀ parts : List Concept,
      (ofParts? (resolveSelf parts)).isSome = (ofParts? parts).isSome := by
    intro parts
    rw [Bool.eq_iff_iff, Option.isSome_iff_ne_none, Option.isSome_iff_ne_none, ne_eq, ne_eq,
      ofParts?_eq_none_iff, ofParts?_eq_none_iff, resolveSelf_eq_nil_iff]
  rw [List.filterMap_map, List.length_filterMap_eq_countP, List.length_filterMap_eq_countP]
  exact List.countP_congr fun parts _ => by rw [Function.comp_apply, same]

end Concept

/-! ## Several concepts -/

namespace Source

/-- Several branches are read one after the other. -/
theorem readBranches_map {α : Type} (branch : α → Branch) (l : List α) :
    readBranches (l.map branch) = l.flatMap fun a => readNodes (branch a) [] := by
  induction l with
  | nil => rw [List.map_nil, readBranches, List.flatMap_nil]
  | cons a l ih => rw [List.map_cons, readBranches, ih, List.flatMap_cons]

/-- What is read of clean concepts with clean values put in, if the readings of each of them are
known. -/
theorem substitute_eq_of_readings {values : Values} {cs : List Concept}
    {sequences : Concept → List (List Concept)} (hc : ∀ c ∈ cs, c.Clean)
    (clean : ∀ name, ∀ value ∈ values name, value.Clean)
    (read : ∀ c ∈ cs, readNodes (c.filledBranch values) [] = (sequences c).map (⟨·, false⟩)) :
    substitute values cs = .ok (Concept.distinct (cs.flatMap fun c =>
      ((sequences c).map Concept.resolveSelf).filterMap Concept.ofParts?)) := by
  by_cases nonempty : cs = []
  · subst nonempty
    exact denote_empty _
  · have spells := Concept.Clean.spellsBranches_filled nonempty hc clean
    obtain ⟨tokens, cut, laid⟩ := outline_of_spells spells
    rw [substitute, concepts, denote_of_outline cut laid, Block.readings, readBranches_map,
      List.map_flatMap, List.filterMap_flatMap]
    refine congrArg (fun l => Except.ok (Concept.distinct l)) (List.flatMap_congr fun c h => ?_)
    rw [read c h, List.map_map]
    rfl

/-- The concepts that come of putting clean values into clean concepts are their fillings, each
once. The word `&` has to be missing, since it would stand for other parts. -/
theorem substitute_eq_fillings {values : Values} {cs : List Concept} (hc : ∀ c ∈ cs, c.Clean)
    (clean : ∀ name, ∀ value ∈ values name, value.Clean)
    (none : ∀ c ∈ cs, Concept.selfReference ∉ c.words)
    (noneInserted : ∀ name, ∀ value ∈ values name, Concept.selfReference ∉ value.words) :
    substitute values cs = .ok (Concept.distinct (cs.flatMap (Concept.fillings values))) := by
  have readings := fun c h =>
    (hc c h).exists_readings_filledBranch clean (none c h) noneInserted
  choose! sequences read made clear using readings
  rw [substitute_eq_of_readings hc clean read]
  refine congrArg (fun l => Except.ok (Concept.distinct l)) (List.flatMap_congr fun c h => ?_)
  have same : (sequences c).map Concept.resolveSelf = sequences c :=
    List.map_congr_left (fun parts hp => Concept.resolveSelf_of_forall (clear c h parts hp))
      |>.trans (List.map_id _)
  rw [same, made c h]

/-- The concepts that come of putting clean bindings into clean concepts are their instances, each
once. -/
theorem substitute_eq {b : Bindings} {cs : List Concept} (hc : ∀ c ∈ cs, c.Clean)
    (hb : b.AllValues Concept.Clean) (none : ∀ c ∈ cs, Concept.selfReference ∉ c.words)
    (noneBound : b.AllValues (Concept.selfReference ∉ ·.words)) :
    substitute b.values cs = .ok (Concept.distinct (cs.map (Concept.instantiate b))) := by
  have instances : cs.flatMap (Concept.fillings b.values) = cs.map (Concept.instantiate b) := by
    rw [List.map_eq_flatMap]
    exact List.flatMap_congr fun c h => (hc c h).fillings_values
  rw [substitute_eq_fillings hc (fun _ _ hm => hb (Bindings.mem_values_iff.mp hm)) none
    (fun _ _ hm => noneBound (Bindings.mem_values_iff.mp hm)), instances]

/-- Clean bindings are put into clean concepts without a fault, whatever `&` comes to stand for, and
no concept becomes more than one. -/
theorem exists_substitute_eq {b : Bindings} {cs : List Concept} (hc : ∀ c ∈ cs, c.Clean)
    (hb : b.AllValues Concept.Clean) :
    ∃ ds, substitute b.values cs = .ok ds ∧ ds.length ≤ cs.length := by
  have clean : ∀ name, ∀ value ∈ b.values name, value.Clean := fun _ _ hm =>
    hb (Bindings.mem_values_iff.mp hm)
  -- Any word that no clean concept has will do here.
  have absent : ∀ c : Concept, c.Clean → "" ∉ c.words := fun c h hw =>
    absurd (h.isToken_of_mem_words hw) (by decide)
  have readings := fun c h => (hc c h).exists_readings_filledBranch clean (absent c (hc c h))
    fun name value hm => absent value (clean name value hm)
  choose! sequences read made _ using readings
  refine ⟨_, substitute_eq_of_readings hc clean read, ?_⟩
  have one : ∀ c ∈ cs,
      (((sequences c).map Concept.resolveSelf).filterMap Concept.ofParts?).length = 1 := by
    intro c h
    rw [Concept.length_filterMap_resolveSelf, made c h, (hc c h).fillings_values]
    rfl
  have length : (cs.flatMap fun c =>
      ((sequences c).map Concept.resolveSelf).filterMap Concept.ofParts?).length = cs.length := by
    rw [List.length_flatMap, List.map_congr_left one]
    simp
  rw [← length]
  exact (Concept.distinct_sublist _).length_le

end Source

end ConceptSpace
