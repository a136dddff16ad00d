import Mathlib.Data.List.Forall2
import ConceptSpace.Proofs.Concept.Clean
import ConceptSpace.Proofs.Sequence.Choices
import ConceptSpace.Proofs.Source.Blocks

/-!
# Readings of outlines without asides

A word *offers* itself, and a nested block in which nothing is stated aside offers the concepts
that its readings make. A branch of such nodes has a reading for each choice of what the nodes
offer (`readNodes_of_offers`). If every node *names* a single concept, the branch has one reading:
it *states* these concepts (`States.of_forall`), and text that spells stated branches denotes the
concepts made of them (`denote_of_states`).
-/

namespace ConceptSpace.Source

/-! ## Alternatives -/

/-- A node that stands for each of some concepts in turn. -/
def Node.Offers : Node → List Concept → Prop
  | .atom word, cs => cs = [.atom word]
  | .block bracket branches, cs =>
    bracket = .nested ∧ cs ≠ [] ∧
      ∃ sequences : List (List Concept), readBranches branches = sequences.map (⟨·, false⟩) ∧
        sequences.filterMap Concept.ofParts? = cs

namespace Reading

theorem continuing_map_false (sequences : List (List Concept)) :
    continuing (sequences.map (⟨·, false⟩)) = sequences := by
  simp [continuing, List.filter_map, Function.comp_def]

theorem asides_map_false (sequences : List (List Concept)) :
    asides (sequences.map (⟨·, false⟩)) = [] := by
  simp [asides]

/-- What starts a sequence continues the empty one. -/
theorem combine_nil {continuations : List (List Concept)} (nonempty : continuations ≠ []) :
    combine [] continuations = combine [[]] continuations := by
  simp [combine, nonempty]

theorem combine_of_ne_nil {sequences continuations : List (List Concept)}
    (nonempty : sequences ≠ []) (offered : continuations ≠ []) :
    combine sequences continuations =
      sequences.flatMap fun before => continuations.map (before ++ ·) := by
  simp [combine, nonempty, offered]

end Reading

/-- A node that continues what stands before it in each of some ways, and states nothing aside. -/
structure Node.Yields (node : Node) (alternatives : List (List Concept)) : Prop where
  ne_nil : alternatives ≠ []
  read : ∀ (nodes : Branch) (sequences : List (List Concept)),
    readNodes (node :: nodes) sequences = readNodes nodes (Reading.combine sequences alternatives)

/-- Nodes continue each sequence at hand with each choice of one alternative for every node. -/
theorem readNodes_of_yields {nodes : Branch} {alternatives : List (List (List Concept))}
    (h : List.Forall₂ Node.Yields nodes alternatives) {sequences : List (List Concept)}
    (nonempty : sequences ≠ []) :
    readNodes nodes sequences =
      (sequences.flatMap fun before =>
        (Sequence.choices alternatives).map fun choice => before ++ choice.flatten).map
          (⟨·, false⟩) := by
  induction h generalizing sequences with
  | nil => simp [readNodes, Sequence.choices]
  | @cons node first nodes alternatives hn _ ih =>
    have further : (sequences.flatMap fun before => first.map (before ++ ·)) ≠ [] := by
      obtain ⟨before, more, rfl⟩ := List.exists_cons_of_ne_nil nonempty
      simp [hn.ne_nil]
    rw [hn.read, Reading.combine_of_ne_nil nonempty hn.ne_nil, ih further]
    simp only [Sequence.choices, List.flatMap_assoc, List.flatMap_map, List.map_flatMap,
      List.map_map, Function.comp_def, List.append_assoc, List.flatten_cons]

/-- A branch of its own has a reading for each choice of one alternative for every node. -/
theorem readNodes_nil_of_yields {nodes : Branch} {alternatives : List (List (List Concept))}
    (h : List.Forall₂ Node.Yields nodes alternatives) (nonempty : nodes ≠ []) :
    readNodes nodes [] =
      ((Sequence.choices alternatives).map List.flatten).map (⟨·, false⟩) := by
  have start : readNodes nodes [] = readNodes nodes [[]] := by
    cases h with
    | nil => exact absurd rfl nonempty
    | cons hn _ => rw [hn.read, hn.read, Reading.combine_nil hn.ne_nil]
  rw [start, readNodes_of_yields h (by simp)]
  simp

/-! ## Alternatives of one part -/

theorem Node.Offers.ne_nil {node : Node} {cs : List Concept} (h : node.Offers cs) : cs ≠ [] := by
  cases node with
  | atom word =>
    obtain rfl : cs = [.atom word] := h
    simp
  | block => exact h.2.1

/-- A node continues each sequence at hand with each concept that it offers. -/
theorem Node.Offers.yields {node : Node} {cs : List Concept} (h : node.Offers cs) :
    node.Yields (cs.map ([·])) where
  ne_nil := by simpa using h.ne_nil
  read nodes sequences := by
    cases node with
    | atom word =>
      obtain rfl : cs = [.atom word] := h
      rw [readNodes, List.map_singleton]
    | block bracket branches =>
      obtain ⟨rfl, -, inner, read, rfl⟩ := h
      simp [readNodes, read, Bracket.statedAside, Bracket.continuations, Reading.asides_map_false,
        Reading.continuing_map_false]

theorem forall₂_yields_of_offers {nodes : Branch} {offered : List (List Concept)}
    (h : List.Forall₂ Node.Offers nodes offered) :
    List.Forall₂ Node.Yields nodes (offered.map (List.map ([·]))) :=
  List.forall₂_map_right_iff.mpr (h.imp fun _ _ => Node.Offers.yields)

/-- Nodes continue each sequence at hand with each choice of what they offer. -/
theorem readNodes_of_offers {nodes : Branch} {offered : List (List Concept)}
    (h : List.Forall₂ Node.Offers nodes offered) {sequences : List (List Concept)}
    (nonempty : sequences ≠ []) :
    readNodes nodes sequences =
      (sequences.flatMap fun before =>
        (Sequence.choices offered).map (before ++ ·)).map (⟨·, false⟩) := by
  rw [readNodes_of_yields (forall₂_yields_of_offers h) nonempty, Sequence.choices_map_map]
  simp only [List.map_map, Function.comp_def, ← List.flatMap_def, List.flatMap_singleton']

/-- A branch of its own has a reading for each choice of what its nodes offer. -/
theorem readNodes_nil_of_offers {nodes : Branch} {offered : List (List Concept)}
    (h : List.Forall₂ Node.Offers nodes offered) (nonempty : nodes ≠ []) :
    readNodes nodes [] = (Sequence.choices offered).map (⟨·, false⟩) := by
  rw [readNodes_nil_of_yields (forall₂_yields_of_offers h) nonempty, Sequence.choices_map_map]
  simp only [List.map_map, Function.comp_def, ← List.flatMap_def, List.flatMap_singleton',
    List.map_id']

/-! ## Single readings -/

/-- A branch that has one reading, whatever stands in front of it. -/
def States (nodes : Branch) (parts : List Concept) : Prop :=
  readNodes nodes [] = [⟨parts, false⟩] ∧
    ∀ before, readNodes nodes [before] = [⟨before ++ parts, false⟩]

/-- A node that stands for one concept. -/
def Node.Names : Node → Concept → Prop
  | .atom word, c => c = .atom word
  | .block bracket branches, c =>
    bracket = .nested ∧
      ∃ parts, readBranches branches = [⟨parts, false⟩] ∧ Concept.ofParts? parts = some c

theorem Node.Names.offers {node : Node} {c : Concept} (h : node.Names c) : node.Offers [c] := by
  cases node with
  | atom word =>
    obtain rfl : c = .atom word := h
    rfl
  | block =>
    obtain ⟨rfl, parts, read, made⟩ := h
    exact ⟨rfl, by simp, [parts], by simp [read], by simp [made]⟩

/-- A nested block of one stated branch names the concept made of the parts. -/
theorem Node.names_nested {nodes : Branch} {parts : List Concept} {c : Concept}
    (h : States nodes parts) (made : Concept.ofParts? parts = some c) :
    Node.Names (.block .nested [nodes]) c :=
  ⟨rfl, parts, by simp [readBranches, h.1], made⟩

/-- Nodes that each name a concept state these concepts. -/
theorem States.of_forall {nodes : Branch} {parts : List Concept}
    (h : List.Forall₂ Node.Names nodes parts) (nonempty : nodes ≠ []) : States nodes parts := by
  have offered : List.Forall₂ Node.Offers nodes (parts.map ([·])) :=
    List.forall₂_map_right_iff.mpr (h.imp fun _ _ => Node.Names.offers)
  refine ⟨?_, fun before => ?_⟩
  · rw [readNodes_nil_of_offers offered nonempty, Sequence.choices_map_singleton,
      List.map_singleton]
  · rw [readNodes_of_offers offered (by simp), Sequence.choices_map_singleton]
    simp

/-- Branches with one reading each are read one after the other. -/
theorem readBranches_of_states {branches : List Branch} {stated : List (List Concept)}
    (h : List.Forall₂ States branches stated) :
    readBranches branches = stated.map (⟨·, false⟩) := by
  induction h with
  | nil => rw [readBranches, List.map_nil]
  | cons hs _ ih => rw [readBranches, hs.1, ih, List.map_cons, List.singleton_append]

/-- What a text with an outline denotes. -/
theorem denote_of_outline {source : String} {tokens : List Token} {root : Block}
    (cut : tokenize source = .ok tokens) (laid : outline source tokens = .ok root)
    (passes : List (List Concept → List Concept)) :
    denote passes source = .ok (Concept.distinct ((root.readings.map fun reading =>
      passes.foldl (fun parts pass => pass parts) reading.parts).filterMap Concept.ofParts?)) := by
  rw [denote, cut]
  change (outline source tokens >>= _) = _
  rw [laid]
  rfl

/-- Text that spells stated branches denotes the concepts made of their parts, with the passes
applied to each branch. -/
theorem denote_of_states {source : String} {branches : List Branch}
    {stated : List (List Concept)} (spells : SpellsBranches source.toList branches)
    (h : List.Forall₂ States branches stated) (passes : List (List Concept → List Concept)) :
    denote passes source = .ok (Concept.distinct ((stated.map fun parts =>
      passes.foldl (fun parts pass => pass parts) parts).filterMap Concept.ofParts?)) := by
  obtain ⟨tokens, cut, laid⟩ := outline_of_spells spells
  rw [denote_of_outline cut laid, Block.readings, readBranches_of_states h, List.map_map]
  rfl

theorem denote_empty (passes : List (List Concept → List Concept)) : denote passes "" = .ok [] := by
  rw [denote_of_outline outline_empty.1 outline_empty.2, Block.readings, readBranches]
  rfl

theorem conceptsOf_singleton (source : String) : conceptsOf [source] = concepts source := by
  rw [conceptsOf, String.intercalate_singleton]

end ConceptSpace.Source
