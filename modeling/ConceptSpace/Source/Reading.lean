import ConceptSpace.Concept.Basic
import ConceptSpace.Source.Outline

/-!
# Readings

What a block says, spelled out: every sequence of parts that choosing an alternative in each of its
blocks gives. A branch is read from left to right, with all sequences so far at hand; each block
continues every sequence in every way that it allows.

A block can also state facts *aside*, which do not continue the sequence that they stand in. A
parenthetical block states its readings about the last part before it; the other blocks pass on
what the blocks inside them state. Behind a directive, a nested block keeps its asides inside.
-/

namespace ConceptSpace.Source

/-- One way to read a block. -/
structure Reading where
  /-- The parts, from left to right. -/
  parts : List Concept
  /-- Whether the parts are stated aside, apart from the sequence that the block stands in. -/
  aside : Bool
  deriving DecidableEq

namespace Reading

/-- The part sequences that continue the surrounding one. -/
def continuing (readings : List Reading) : List (List Concept) :=
  (readings.filter (!·.aside)).map (·.parts)

/-- The part sequences stated aside. -/
def asides (readings : List Reading) : List (List Concept) :=
  (readings.filter (·.aside)).map (·.parts)

/-- The different last parts of some sequences. -/
def tails (sequences : List (List Concept)) : List Concept :=
  Concept.distinct (sequences.filterMap List.getLast?)

/-- Continues each sequence in each given way, the first sequence first. Where there are no
sequences yet the continuations start them, and where there are no continuations the sequences
stay. -/
def combine (sequences continuations : List (List Concept)) : List (List Concept) :=
  if continuations.isEmpty then sequences
  else if sequences.isEmpty then continuations
  else sequences.flatMap fun left => continuations.map (left ++ ·)

end Reading

namespace Bracket

/-- The facts that a block with these readings states aside, when it stands behind sequences that
end in `tails`. -/
def statedAside (bracket : Bracket) (tails : List Concept) (readings : List Reading) :
    List (List Concept) :=
  match bracket with
  | .inline => Reading.asides readings
  | .nested =>
    if tails.isEmpty || tails.any (!·.isDirective) then Reading.asides readings else []
  | .parenthetical =>
    (Reading.continuing readings).flatMap
      (fun right => if tails.isEmpty then [right] else tails.map (· :: right)) ++
        Reading.asides readings

/-- The ways in which a block with these readings continues sequences that end in `tails`. -/
def continuations (bracket : Bracket) (tails : List Concept) (readings : List Reading) :
    List (List Concept) :=
  match bracket with
  | .inline => Reading.continuing readings
  | .nested =>
    let kept := if tails.any (·.isDirective) then Reading.asides readings else []
    ((Reading.continuing readings ++ kept).filterMap Concept.ofParts?).map ([·])
  | .parenthetical => []

end Bracket

mutual

/-- The readings of a branch whose nodes so far gave the sequences at hand: first what the
remaining nodes state aside, then the finished sequences. -/
def readNodes : List Node → List (List Concept) → List Reading
  | [], sequences => sequences.map fun parts => ⟨parts, false⟩
  | .atom word :: nodes, sequences =>
    readNodes nodes (Reading.combine sequences [[.atom word]])
  | .block bracket branches :: nodes, sequences =>
    let tails := Reading.tails sequences
    let readings := readBranches branches
    (bracket.statedAside tails readings).map (fun parts => ⟨parts, true⟩) ++
      readNodes nodes (Reading.combine sequences (bracket.continuations tails readings))

/-- The readings of several branches, one after the other. -/
def readBranches : List (List Node) → List Reading
  | [] => []
  | branch :: branches => readNodes branch [] ++ readBranches branches

end

/-- All readings of a block, in order. -/
def Block.readings (block : Block) : List Reading :=
  readBranches block.branches

end ConceptSpace.Source
