import ConceptSpace.Pattern.Bindings

/-!
# Unification

A pattern is fitted to a concept: each variable of the pattern is bound to the part of the concept
at its place, the same part at each of its places. Everything else has to agree word by word. The
members of a set may be paired in any order; members without variables choose first, since they
have the fewest candidates, and the first complete pairing in the order of the members counts.
-/

namespace ConceptSpace

/-- Fits something to a concept under bindings made so far, and extends them. -/
abbrev Matcher := Concept → Bindings → Option Bindings

namespace Matcher

variable {α : Type}

/-- Each element of a list, with the list without it. -/
def picks : List α → List (α × List α)
  | [] => []
  | a :: l => (a, l) :: (picks l).map fun (b, rest) => (b, a :: rest)

/-- Applies matchers to the concepts at their places. -/
def inOrder : List Matcher → List Concept → Bindings → Option Bindings
  | fit :: fits, c :: cs, b => (fit c b).bind (inOrder fits cs)
  | _, _, b => some b

/-- Applies each matcher to a concept of its own, the first assignment that works in the order of
the list. -/
def inAnyOrder : List Matcher → List Concept → Bindings → Option Bindings
  | [], _, b => some b
  | fit :: fits, cs, b =>
    (picks cs).findSome? fun (c, rest) => (fit c b).bind (inAnyOrder fits rest)

/-- The matchers of set members, those of members without variables first. -/
def groundFirst (members : List (Concept × Matcher)) : List Matcher :=
  let (openMembers, ground) := members.partition (·.1.mentionsVariable)
  (ground ++ openMembers).map (·.2)

end Matcher

namespace Concept

mutual

/-- Fits a pattern to a concept. -/
def unify : Concept → Matcher
  | .atom word, c, b =>
    if startsWith '$' word then b.bind? word c
    else
      match c with
      | .atom found => if found = word then some b else none
      | .compound _ => none
  | .compound ps, c, b =>
    match c with
    | .atom _ => none
    | .compound cs =>
      if ps.length ≠ cs.length then none
      else if isSet (.compound ps) && isSet (.compound cs) then
        Matcher.inAnyOrder (Matcher.groundFirst (matchers ps).tail) cs.tail b
      else Matcher.inOrder ((matchers ps).map (·.2)) cs b

/-- Patterns, each with its matcher. -/
def matchers : List Concept → List (Concept × Matcher)
  | [] => []
  | p :: ps => (p, unify p) :: matchers ps

end

/-- The bindings under which a pattern is the given concept. -/
def match? (concept pattern : Concept) : Option Bindings :=
  unify pattern concept ∅

theorem matchers_eq_map (ps : List Concept) : matchers ps = ps.map fun p => (p, unify p) := by
  induction ps with
  | nil => rfl
  | cons p ps ih => simp [matchers, ih]

end Concept

end ConceptSpace
