import ConceptSpace.Proofs.Source.Nesting
import ConceptSpace.Proofs.Source.Readings

/-!
# Outlines without parenthetical blocks

Where nothing is stated aside, the readings of a block are a product: its branches are read one
after the other, and a branch in every way to choose one alternative for each of its nodes. The
readings are computed differently, with all sequences so far at hand and with a special meaning for
none at all; that both give the same in the same order (`readings_eq_sequencesOf`) rests on full
blocks, where every node has an alternative and no alternative is empty.
-/

namespace ConceptSpace.Source

/-! ## The product -/

mutual

/-- The ways in which a node continues what stands before it, where parenthetical blocks do not
count. A nested block continues it by one part: what a sequence within it makes. -/
def Node.alternatives : Node → List (List Concept)
  | .atom word => [[.atom word]]
  | .block .nested branches =>
    (sequencesOf branches).map fun parts => (Concept.ofParts? parts).toList
  | .block _ branches => sequencesOf branches

/-- The alternatives of each node in turn. -/
def alternativesOfEach : List Node → List (List (List Concept))
  | [] => []
  | node :: nodes => node.alternatives :: alternativesOfEach nodes

/-- The part sequences of several branches, one branch after the other. -/
def sequencesOf : List (List Node) → List (List Concept)
  | [] => []
  | branch :: branches =>
    (Sequence.choices (alternativesOfEach branch)).map List.flatten ++ sequencesOf branches

end

theorem alternativesOfEach_eq_map (nodes : Branch) :
    alternativesOfEach nodes = nodes.map Node.alternatives := by
  induction nodes with
  | nil => rfl
  | cons node nodes ih => rw [alternativesOfEach, ih, List.map_cons]

theorem mem_sequencesOf {branches : List Branch} {parts : List Concept} :
    parts ∈ sequencesOf branches ↔
      ∃ branch ∈ branches, ∃ choice ∈ Sequence.choices (branch.map Node.alternatives),
        choice.flatten = parts := by
  induction branches with
  | nil => simp [sequencesOf]
  | cons branch branches ih => simp [sequencesOf, ih, alternativesOfEach_eq_map]

/-- The blocks that a node is or has within it. -/
inductive Node.Contains : Node → Block → Prop where
  | self (bracket : Bracket) (branches : List Branch) :
    Contains (.block bracket branches) ⟨bracket, branches⟩
  | within {bracket : Bracket} {branches : List Branch} {branch : Branch} {node : Node}
    {block : Block} (hb : branch ∈ branches) (hn : node ∈ branch) (h : node.Contains block) :
    Contains (.block bracket branches) block

theorem Node.not_contains_atom (word : String) (block : Block) :
    ¬ (Node.atom word).Contains block :=
  nofun

theorem Node.contains_block_iff {bracket : Bracket} {branches : List Branch} {block : Block} :
    (Node.block bracket branches).Contains block ↔
      block = ⟨bracket, branches⟩ ∨ ∃ branch ∈ branches, ∃ node ∈ branch, node.Contains block := by
  constructor
  · rintro (_ | ⟨hb, hn, h⟩)
    · exact .inl rfl
    · exact .inr ⟨_, hb, _, hn, h⟩
  · rintro (rfl | ⟨_, hb, _, hn, h⟩)
    · exact .self ..
    · exact .within hb hn h

/-- The block itself and all blocks within it. -/
def Block.Contains (root block : Block) : Prop :=
  (Node.block root.bracket root.branches).Contains block

/-! ## No empty sequence -/

/-- Where no branch is empty and no alternative of a node, no sequence is. -/
theorem nil_notMem_sequencesOf {branches : List Branch}
    (filled : ∀ branch ∈ branches, branch ≠ [])
    (each : ∀ branch ∈ branches, ∀ node ∈ branch, [] ∉ node.alternatives) :
    [] ∉ sequencesOf branches := by
  intro h
  obtain ⟨branch, hb, choice, hc, empty⟩ := mem_sequencesOf.mp h
  have long : choice.length = branch.length := by
    simpa using Sequence.length_of_mem_choices hc
  obtain ⟨first, more, rfl⟩ : ∃ first more, choice = first :: more := by
    refine List.exists_cons_of_ne_nil fun none => filled branch hb ?_
    simpa [none, eq_comm] using long
  obtain ⟨alternatives, ha, hf⟩ := Sequence.exists_of_mem_choices hc (List.mem_cons_self ..)
  obtain ⟨node, hn, rfl⟩ := List.mem_map.mp ha
  obtain ⟨rfl, -⟩ : first = [] ∧ more.flatten = [] := by simpa using empty
  exact each branch hb node hn hf

theorem Node.IsFull.nil_notMem_alternatives {node : Node} (full : node.IsFull) :
    [] ∉ node.alternatives := by
  induction full with
  | atom word => simp [alternatives]
  | @block bracket branches _ filled _ ih =>
    have inner := nil_notMem_sequencesOf filled ih
    cases bracket with
    | inline | parenthetical => simpa [alternatives] using inner
    | nested =>
      rw [alternatives]
      intro h
      obtain ⟨parts, hp, none⟩ := List.mem_map.mp h
      rw [Option.toList_eq_nil_iff, Concept.ofParts?_eq_none_iff] at none
      exact inner (none ▸ hp)

theorem Block.IsFull.nil_notMem {block : Block} (full : block.IsFull) :
    [] ∉ sequencesOf block.branches :=
  nil_notMem_sequencesOf (fun branch hb => (full branch hb).1) fun branch hb node hn =>
    ((full branch hb).2 node hn).nil_notMem_alternatives

theorem Node.Contains.isFull {node : Node} {block : Block} (h : node.Contains block)
    (full : node.IsFull) : block.IsFull := by
  induction h with
  | self =>
    cases full with
    | block _ filled each => exact fun branch hb => ⟨filled branch hb, each branch hb⟩
  | within hb hn _ ih =>
    cases full with
    | block _ _ each => exact ih (each _ hb _ hn)

theorem Block.Contains.isFull {root block : Block} (h : root.Contains block)
    (full : root.IsFull) : block.IsFull := by
  rcases Node.contains_block_iff.mp h with rfl | ⟨branch, hb, node, hn, h⟩
  · exact full
  · exact h.isFull ((full branch hb).2 node hn)

/-! ## Readings -/

theorem map_toList_ofParts? {sequences : List (List Concept)} (h : [] ∉ sequences) :
    (sequences.map fun parts => (Concept.ofParts? parts).toList) =
      (sequences.filterMap Concept.ofParts?).map ([·]) := by
  induction sequences with
  | nil => rfl
  | cons parts sequences ih =>
    obtain ⟨some, rest⟩ := not_or.mp (mt List.mem_cons.mpr h)
    cases made : Concept.ofParts? parts with
    | none => exact absurd (Concept.ofParts?_eq_none_iff.mp made).symm some
    | some c => simp [made, ih rest]

/-- Branches of nodes that yield their alternatives are read as the product. -/
theorem readBranches_of_yields {branches : List Branch}
    (filled : ∀ branch ∈ branches, branch ≠ [])
    (each : ∀ branch ∈ branches, ∀ node ∈ branch, node.Yields node.alternatives) :
    readBranches branches = (sequencesOf branches).map (⟨·, false⟩) := by
  induction branches with
  | nil => rw [readBranches, sequencesOf, List.map_nil]
  | cons branch branches ih =>
    obtain ⟨some, others⟩ := List.forall_mem_cons.mp filled
    obtain ⟨hn, rest⟩ := List.forall_mem_cons.mp each
    have yields : List.Forall₂ Node.Yields branch (alternativesOfEach branch) := by
      rw [alternativesOfEach_eq_map, List.forall₂_map_right_iff, List.forall₂_same]
      exact hn
    rw [readBranches, readNodes_nil_of_yields yields some, ih others rest, sequencesOf,
      List.map_append]

theorem sequencesOf_ne_nil {branches : List Branch} (some : branches ≠ [])
    (each : ∀ branch ∈ branches, ∀ node ∈ branch, node.alternatives ≠ []) :
    sequencesOf branches ≠ [] := by
  obtain ⟨branch, branches, rfl⟩ := List.exists_cons_of_ne_nil some
  have first : Sequence.choices (alternativesOfEach branch) ≠ [] := by
    rw [alternativesOfEach_eq_map]
    refine Sequence.choices_ne_nil fun alternatives ha => ?_
    obtain ⟨node, hn, rfl⟩ := List.mem_map.mp ha
    exact each branch (by simp) node hn
  simp [sequencesOf, first]

/-- A full node with no parenthetical block in it yields its alternatives. -/
theorem Node.IsFull.yields {node : Node} (full : node.IsFull)
    (plain : ∀ block, node.Contains block → block.bracket ≠ .parenthetical) :
    node.Yields node.alternatives := by
  induction full with
  | atom word =>
    exact ⟨by simp [alternatives], fun nodes sequences => by rw [readNodes, alternatives]⟩
  | @block bracket branches some filled each ih =>
    have inner : ∀ branch ∈ branches, ∀ node ∈ branch, node.Yields node.alternatives :=
      fun branch hb node hn => ih branch hb node hn fun block h => plain block (.within hb hn h)
    have read := readBranches_of_yields filled inner
    have nonempty := sequencesOf_ne_nil some fun branch hb node hn =>
      (inner branch hb node hn).ne_nil
    cases bracket with
    | inline =>
      refine ⟨by simpa [alternatives] using nonempty, fun nodes sequences => ?_⟩
      simp [readNodes, read, alternatives, Bracket.statedAside, Bracket.continuations,
        Reading.asides_map_false, Reading.continuing_map_false]
    | nested =>
      have none := nil_notMem_sequencesOf filled fun branch hb node hn =>
        (each branch hb node hn).nil_notMem_alternatives
      refine ⟨by simpa [alternatives] using nonempty, fun nodes sequences => ?_⟩
      simp [readNodes, read, alternatives, Bracket.statedAside, Bracket.continuations,
        Reading.asides_map_false, Reading.continuing_map_false, map_toList_ofParts? none]
    | parenthetical => exact absurd rfl (plain _ (.self ..))

/-- The readings of an outline without parenthetical blocks are the sequences of the product, in the
same order, and none is stated aside. Every sequence of a block within it makes a concept, so that a
nested block has one part for each. -/
theorem readings_eq_sequencesOf {source : String} {tokens : List Token} {root : Block}
    (laid : outline source tokens = .ok root)
    (plain : ∀ block, root.Contains block → block.bracket ≠ .parenthetical) :
    root.readings = (sequencesOf root.branches).map (⟨·, false⟩) ∧
      ∀ block, root.Contains block → ∀ parts ∈ sequencesOf block.branches,
        (Concept.ofParts? parts).isSome := by
  obtain ⟨-, full⟩ := isFull_of_outline laid
  have each : ∀ branch ∈ root.branches, ∀ node ∈ branch, node.Yields node.alternatives :=
    fun branch hb node hn =>
      ((full branch hb).2 node hn).yields fun block h => plain block (.within hb hn h)
  refine ⟨readBranches_of_yields (fun branch hb => (full branch hb).1) each, ?_⟩
  intro block h parts hp
  rw [Option.isSome_iff_ne_none, ne_eq, Concept.ofParts?_eq_none_iff]
  rintro rfl
  exact (h.isFull full).nil_notMem hp

/-- The outline of `x {a, b} [c {d, e}]`. -/
private def fan : Block :=
  ⟨.inline, [[.atom "x", .block .inline [[.atom "a"], [.atom "b"]],
    .block .nested [[.atom "c", .block .inline [[.atom "d"], [.atom "e"]]]]]]⟩

private def fanTokens : List Token :=
  [⟨.atom, "x", 0⟩, ⟨.spaces, " ", 1⟩, ⟨.opening .inline, "\x7b", 2⟩, ⟨.atom, "a", 3⟩,
    ⟨.branch, ", ", 4⟩, ⟨.atom, "b", 6⟩, ⟨.closing .inline, "\x7d", 7⟩, ⟨.spaces, " ", 8⟩,
    ⟨.opening .nested, "[", 9⟩, ⟨.atom, "c", 10⟩, ⟨.spaces, " ", 11⟩,
    ⟨.opening .inline, "\x7b", 12⟩, ⟨.atom, "d", 13⟩, ⟨.branch, ", ", 14⟩, ⟨.atom, "e", 16⟩,
    ⟨.closing .inline, "\x7d", 17⟩, ⟨.closing .nested, "]", 18⟩]

theorem readings_fan :
    (fan.readings.map fun reading => (reading.parts.map Concept.key, reading.aside)) =
      [(["x", "a", "c d"], false), (["x", "a", "c e"], false), (["x", "b", "c d"], false),
        (["x", "b", "c e"], false)] := by
  have laid : outline "x \x7ba, b\x7d [c \x7bd, e\x7d]" fanTokens = .ok fan := rfl
  have plain : ∀ block, fan.Contains block → block.bracket ≠ .parenthetical := by
    intro block h
    simp only [Block.Contains, fan, Node.contains_block_iff, List.mem_cons, List.not_mem_nil,
      or_false, exists_eq_or_imp, exists_eq_left, Node.not_contains_atom, false_or] at h
    rcases h with rfl | rfl | rfl | rfl <;> decide
  rw [(readings_eq_sequencesOf laid plain).1]
  decide

end ConceptSpace.Source
