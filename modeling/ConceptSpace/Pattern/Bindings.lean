import Std.Data.ExtTreeMap
import ConceptSpace.Source.Denotation

/-!
# Bindings and substitution

*Bindings* give each variable one concept, *interpolations* any number of them. Both are put into
concepts as source text: a variable with values becomes a nested block of alternatives, a variable
without values stays, and the text is read again. A variable with several values therefore fans
out into several concepts.
-/

namespace ConceptSpace

/-- One concept for each of some variables. -/
abbrev Bindings := Std.ExtTreeMap String Concept

/-- Alternative concepts for each of some variables. -/
abbrev Interpolations := Std.ExtTreeMap String (List Concept)

/-- The values that a variable is replaced by; none leave it in place. -/
abbrev Values := String → List Concept

namespace Bindings

/-- Bindings as values to put in. -/
def values (b : Bindings) : Values := fun name => b[name]?.toList

/-- The concepts that variables are bound to, in the order of the variables. -/
def range (b : Bindings) : List Concept :=
  b.toList.map (·.2)

/-- Whether no variable is bound to a variable. -/
def isGround (b : Bindings) : Bool :=
  b.range.all (!·.isVariable)

/-- The bindings with the key of each concept, which tell bindings apart. -/
def keys (b : Bindings) : List String :=
  b.toList.flatMap fun (name, value) => [name, value.key]

/-- Binds a variable to a concept; `none` if it is bound to another one already. -/
def bind? (b : Bindings) (name : String) (value : Concept) : Option Bindings :=
  match b[name]? with
  | none => some (b.insert name value)
  | some bound => if bound.same value then some b else none

/-- The bindings of both; `none` if they disagree on a variable. -/
def merge? (b extra : Bindings) : Option Bindings :=
  extra.toList.foldlM (fun acc (name, value) => acc.bind? name value) b

/-- The bindings of both, where the second decides on common variables. -/
def override (b winner : Bindings) : Bindings :=
  winner.toList.foldl (fun acc (name, value) => acc.insert name value) b

end Bindings

namespace Interpolations

/-- Interpolations as values to put in. -/
def values (i : Interpolations) : Values := fun name => i.getD name []

/-- The variables that have exactly one value, with it. -/
def single (i : Interpolations) : List (String × Concept) :=
  i.toList.filterMap fun (name, values) =>
    match values with
    | [value] => some (name, value)
    | _ => none

/-- The interpolations that pairs of a variable and a source text denote. A variable that occurs
several times gets the values of all its texts. -/
def ofSources (pairs : List (String × String)) : Except Source.Error Interpolations :=
  pairs.foldlM (fun acc (name, source) => do
    let found ← Source.concepts source
    return acc.insert name (acc.getD name [] ++ found)) ∅

end Interpolations

namespace Concept

mutual

/-- The source text of a concept with values put in for its variables. -/
def filled (values : Values) : Concept → String
  | .atom word =>
    if startsWith '$' word then
      match values word with
      | [] => word
      | found => "[" ++ ",".intercalate (found.map key) ++ "]"
    else word
  | .compound parts => filledParts values parts

/-- The source texts of parts, each as a nested block. -/
def filledParts (values : Values) : List Concept → String
  | [] => ""
  | [part] => "[" ++ (filled values part ++ "]")
  | part :: next :: more =>
    "[" ++ (filled values part ++ ("] " ++ filledParts values (next :: more)))

end

end Concept

namespace Source

/-- The source text of concepts with values put in for their variables. -/
def filled (values : Values) (cs : List Concept) : String :=
  ",".intercalate (cs.map (Concept.filled values))

/-- The concepts that come of putting values in for the variables of some concepts. -/
def substitute (values : Values) (cs : List Concept) : Except Error (List Concept) :=
  concepts (filled values cs)

/-- The concepts that source texts denote, with values put in for their variables. -/
def interpolate (values : Values) (sources : List String) : Except Error (List Concept) := do
  substitute values (← conceptsOf sources)

end Source

end ConceptSpace
