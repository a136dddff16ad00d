import ConceptSpace.Facts.Base

/-!
# Queries

A query is a list of rules that share variables; its answers are the bindings that turn every rule
into a stored fact. Rules without variables are looked up. Of the others, those of the mask with
the most index entries come first: the first rule is the *pivot*. Each index entry of its mask gives
candidate bindings, which are put into the remaining rules, and these are answered in the same way.

An answer that binds a variable to a variable is *partial*; such answers are left out unless they
are asked for.
-/

namespace ConceptSpace

/-- A computation that may go on for ever; then there is no outcome. -/
abbrev Search := ExceptT Error Option

namespace FactBase

open Storage

/-- Rules grouped by their masks, the groups in the order in which their masks first occur. -/
def groupByMask (rules : List Concept) : List (Concept × List Concept) :=
  rules.foldl (fun groups rule =>
    let mask := rule.mask
    if groups.any (·.1.same mask) then
      groups.map fun group => if group.1.same mask then (group.1, group.2 ++ [rule]) else group
    else groups ++ [(mask, [rule])]) []

/-- The bindings that an index entry gives to the variables of a rule. `places` says what the rule
has at each variable of its mask, and `values` what the stored fact has there. -/
def bindEntry (places : Bindings) (values : List Concept) : Option Bindings :=
  (values.mapIdx fun i value => (i, value)).foldlM (fun acc (i, value) => do
    let place ← places[(Concept.numberedVariable i).key]?
    if place.isVariable then acc.bind? place.key value
    else if place.same value then some acc
    else none) ∅

/-- The pivot rule with its mask, and the remaining rules, the group with the highest count first.
There is none without rules. -/
def pivot (t : Table) (patterns : List Concept) :
    Except Error (Option (Concept × Concept × List Concept)) := do
  let counted ← (groupByMask patterns).mapM fun group => do
    return (← maskCount t group.1, group)
  match Sequence.sortBy (fun a b => decide (b.1 ≤ a.1)) counted with
  | (_, mask, rule :: others) :: groups =>
    return some (mask, rule, others ++ groups.flatMap (·.2.2))
  | _ => return none

/-- The answers to rules; there is no outcome if the pivots never end. Nothing bounds their number:
the remaining rules are read again from their text, and what comes of a rule that does not read back
as itself can be several rules. -/
def search (base : FactBase) (t : Table) (partials : Bool) (rules : List Concept) :
    Option (Except Error (List Bindings)) := (do
  let (patterns, ground) := (Concept.distinct rules).partition (·.isPattern)
  if (base.existing t ground).length < ground.length then return []
  match ← pivot t patterns with
  | none => return [∅]
  | some (mask, rule, rest) =>
    match rule.match? mask with
    | none => return []
    | some places =>
      let answers ← (← maskEntries t mask).mapM fun values =>
        match bindEntry places values with
        | none => return []
        | some candidate => do
          if !partials && !candidate.isGround then return []
          if rest.isEmpty then return [candidate]
          let remaining ← liftSource (Source.substitute candidate.values rest)
          let completions ← (base |>.search t partials remaining : Search (List Bindings))
          return completions.filterMap candidate.merge?
      return answers.flatten.filter fun answer => partials || answer.isGround :
    Search (List Bindings))
partial_fixpoint

/-- The answers to rules; partial ones only if they are asked for. -/
def answers (base : FactBase) (t : Table) (rules : List Concept) (partials : Bool := false) :
    Except Error (List Bindings) :=
  (base.search t partials rules).getD (.error .endlessQuery)

end FactBase

end ConceptSpace
