import ConceptSpace.Pattern.Unify
import ConceptSpace.Text.Numeral

/-!
# Masks

A mask is a concept with some positions, at any depth, replaced by variables; facts are indexed by
the masks that fit them. The variables of a mask are `$0`, `$1`, … from left to right, one for each
position, so that masks of one shape share a key.

A mask is built from a *shape*. Set members are put in the order of their shapes with all variables
alike before they are numbered, so that the order in which a pattern names them does not matter. A
mask in which every word is a variable would fit everything and is not used.
-/

namespace ConceptSpace

/-- A concept some positions of which are left open. -/
inductive Shape where
  /-- A position that stays as it is. -/
  | fixed (c : Concept)
  /-- An open position. -/
  | hole
  /-- A compound with open positions inside. -/
  | nested (shapes : List Shape)

namespace Shape

/-! ## Canonical order -/

mutual

/-- The text of a shape as a part, with all variables written alike. -/
def erased : Shape → String
  | .fixed c => c.asPart
  | .hole => "$"
  | .nested shapes => "[" ++ erasedAll shapes ++ "]"

/-- The texts of shapes, with a blank between neighbours. -/
def erasedAll : List Shape → String
  | [] => ""
  | [shape] => shape.erased
  | shape :: next :: more => shape.erased ++ (" " ++ erasedAll (next :: more))

end

/-- The order in which set members are numbered. -/
def erasedLe (a b : Shape) : Bool :=
  a.erased ≤ b.erased

/-- Whether a shape is the word that makes a compound a set. -/
def isSetMarker : Shape → Bool
  | .fixed c => c.key == Concept.setMarker
  | _ => false

/-- Puts the members in order if the shapes are those of a set. -/
def arrange : List Shape → List Shape
  | [] => []
  | head :: members =>
    head :: if head.isSetMarker then Sequence.sortBy erasedLe members else members

mutual

/-- The shape of a concept, open where it has variables, with the members of sets in order. -/
def ofConcept : Concept → Shape
  | .atom word => if Concept.startsWith '$' word then .hole else .fixed (.atom word)
  | .compound parts =>
    if Concept.anyMentionsVariable parts then .nested (arrange (ofConcepts parts))
    else .fixed (.compound parts)

/-- The shapes of several concepts. -/
def ofConcepts : List Concept → List Shape
  | [] => []
  | part :: more => ofConcept part :: ofConcepts more

end

mutual

/-- Opens the variables that a shape still holds, and puts the members of sets in order. -/
def canonical : Shape → Shape
  | .fixed c => ofConcept c
  | .hole => .hole
  | .nested shapes => .nested (arrange (canonicals shapes))

/-- The canonical forms of several shapes. -/
def canonicals : List Shape → List Shape
  | [] => []
  | shape :: more => canonical shape :: canonicals more

end

/-! ## Numbering -/

mutual

/-- Numbers the open positions from left to right, from the number given on; also gives the next
free number. -/
def number : Shape → Nat → Concept × Nat
  | .fixed c, next => (c, next)
  | .hole, next => (.numberedVariable next, next + 1)
  | .nested shapes, next =>
    let (parts, free) := numberAll shapes next
    match Concept.ofParts? parts with
    | some c => (c, free)
    | none => (.numberedVariable free, free + 1)

/-- Numbers the open positions of several shapes. -/
def numberAll : List Shape → Nat → List Concept × Nat
  | [], next => ([], next)
  | shape :: more, next =>
    let (part, next) := number shape next
    let (parts, next) := numberAll more next
    (part :: parts, next)

end

/-- The concept of a shape with its open positions numbered. -/
def toMask (shape : Shape) : Concept :=
  (shape.number 0).1

/-! ## Generalizations -/

mutual

/-- Whether a shape has an open position, or a variable. -/
def isOpen : Shape → Bool
  | .fixed c => c.mentionsVariable
  | .hole => true
  | .nested shapes => anyOpen shapes

/-- Whether one of several shapes has an open position, or a variable. -/
def anyOpen : List Shape → Bool
  | [] => false
  | shape :: more => shape.isOpen || anyOpen more

end

mutual

/-- Every way to keep, open or generalize each part of a compound. The ways to treat the last part
vary fastest. -/
def generalizations : Concept → List (List Shape)
  | .atom _ => []
  | .compound parts => choices parts

/-- Every choice of a shape for each of several parts. -/
def choices : List Concept → List (List Shape)
  | [] => [[]]
  | part :: more =>
    let rest := choices more
    let inner := ((generalizations part).filter anyOpen).map .nested
    (.fixed part :: .hole :: inner).flatMap fun shape => rest.map (shape :: ·)

end

end Shape

namespace Concept

/-- The mask of a pattern: each place of a variable gets a number of its own. A concept without
variables is its own mask. -/
def mask (pattern : Concept) : Concept :=
  (Shape.ofConcept pattern).toMask

/-- The masks that a concept is indexed by. An atom has none. -/
def masks (c : Concept) : List Concept :=
  let candidates := ((Shape.generalizations c).filter Shape.anyOpen).map fun shapes =>
    (Shape.canonical (.nested shapes)).toMask
  (distinct (candidates.filter (!·.isAllVariables))).filter fun mask => (c.match? mask).isSome

/-- The number of a numbered variable. -/
def variableNumber? (name : String) : Option Nat :=
  match name.toList with
  | '$' :: cs => Text.word? cs
  | _ => none

/-- The parts of a concept at the variables of a mask, in the order of their numbers; `none` if the
mask does not fit. -/
def maskValues? (c mask : Concept) : Option (List Concept) := do
  let bindings ← c.match? mask
  let numbered ← bindings.toList.mapM fun (name, value) =>
    (variableNumber? name).map fun number => (number, value)
  return (Sequence.sortBy (fun a b => decide (a.1 ≤ b.1)) numbered).map (·.2)

end Concept

end ConceptSpace
