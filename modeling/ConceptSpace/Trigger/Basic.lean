import ConceptSpace.Facts.Join

/-!
# Triggers

A trigger is a named production rule: when all of its conditions hold of stored facts, it adds and
removes facts and notifies receivers. Triggers are stored as facts themselves, one *component* fact
`name [@role argument]` for each condition and each effect, so that they are queried like any other
fact.
-/

namespace ConceptSpace

/-! ## Components -/

/-- What a component contributes to its trigger. -/
inductive Role where
  /-- A pattern that has to hold. -/
  | condition
  /-- A template of a fact to add. -/
  | addition
  /-- A template of a fact to remove. -/
  | removal
  /-- The address of a receiver. -/
  | notification
  deriving DecidableEq, Repr

namespace Role

/-- All roles, in the order in which components are listed. -/
def all : List Role :=
  [condition, addition, removal, notification]

/-- The directive that states a role. -/
def directive : Role → String
  | condition => "@matches"
  | addition => "@adds"
  | removal => "@removes"
  | notification => "@notifies"

/-- The role that a directive states. -/
def ofDirective? (word : String) : Option Role :=
  all.find? (·.directive == word)

/-- The directive of a role reads back. -/
theorem ofDirective?_directive (role : Role) : ofDirective? role.directive = some role := by
  cases role <;> decide

/-- Only the directive of a role states it. -/
theorem directive_of_ofDirective? {word : String} {role : Role}
    (h : ofDirective? word = some role) : role.directive = word := by
  simpa using List.find?_some h

end Role

/-- One part of the definition of a trigger. -/
structure Component where
  /-- The name of the trigger. -/
  trigger : Concept
  /-- What the part contributes. -/
  role : Role
  /-- The condition, template or address. -/
  argument : Concept
  deriving DecidableEq

namespace Component

/-- The component that a concept of the form `name [@role argument]` states. -/
def ofConcept? (c : Concept) : Option Component :=
  match c.parts with
  | [trigger, tail] =>
    match tail.parts with
    | [directive, argument] =>
      (Role.ofDirective? directive.key).map fun role => ⟨trigger, role, argument⟩
    | _ => none
  | _ => none

/-- The fact that states a component. -/
def toConcept (c : Component) : Concept :=
  .pair c.trigger (.pair (.atom c.role.directive) c.argument)

end Component

/-! ## Triggers -/

/-- A named production rule. -/
structure Trigger where
  /-- The name, which tells triggers apart. -/
  name : Concept
  /-- The patterns that have to hold together. -/
  conditions : List Concept := []
  /-- The templates of the facts to add. -/
  additions : List Concept := []
  /-- The templates of the facts to remove. -/
  removals : List Concept := []
  /-- The addresses of the receivers. -/
  notifications : List Concept := []
  deriving DecidableEq

namespace Trigger

/-- The arguments of a role. -/
def arguments (t : Trigger) : Role → List Concept
  | .condition => t.conditions
  | .addition => t.additions
  | .removal => t.removals
  | .notification => t.notifications

/-- Appends a concept to a list unless the list has it. -/
def appendNew (cs : List Concept) (c : Concept) : List Concept :=
  if cs.any (·.same c) then cs else cs ++ [c]

/-- Gives a trigger one more argument, unless it has it. -/
def push (t : Trigger) (role : Role) (argument : Concept) : Trigger :=
  match role with
  | .condition => { t with conditions := appendNew t.conditions argument }
  | .addition => { t with additions := appendNew t.additions argument }
  | .removal => { t with removals := appendNew t.removals argument }
  | .notification => { t with notifications := appendNew t.notifications argument }

/-- The facts that define a trigger, by role. -/
def components (t : Trigger) : List Concept :=
  Role.all.flatMap fun role =>
    (t.arguments role).map fun argument => Component.toConcept ⟨t.name, role, argument⟩

/-- Puts a component into the trigger of its name, which is started if there is none. -/
def insert (c : Component) : List Trigger → List Trigger
  | [] => [push { name := c.trigger } c.role c.argument]
  | t :: ts => if t.name.same c.trigger then t.push c.role c.argument :: ts else t :: insert c ts

/-- The triggers that components define, in the order in which their names first occur. -/
def ofComponents (cs : List Component) : List Trigger :=
  cs.foldl (fun ts c => insert c ts) []

/-- The line that lists the arguments of a role; there is none if there are no arguments. -/
def describeRole (t : Trigger) (role : Role) : String :=
  match t.arguments role with
  | [] => ""
  | arguments =>
    "\n  " ++ role.directive ++ " [" ++ ", ".intercalate (arguments.map Concept.key) ++ "]"

/-- A text that shows a trigger: its name, then a line for each role. -/
def describe (t : Trigger) : String :=
  t.name.key ++ String.join (Role.all.map t.describeRole)

end Trigger

/-! ## Telling triggers from facts -/

/-- Concepts split into facts and the definitions of triggers. -/
structure Separation where
  /-- The concepts that define no trigger. -/
  facts : List Concept
  /-- The concepts that define triggers. -/
  components : List Concept
  /-- The triggers that they define. -/
  triggers : List Trigger

/-- Splits concepts into facts and the definitions of triggers. -/
def Separation.ofConcepts (cs : List Concept) : Separation where
  facts := cs.filter fun c => (Component.ofConcept? c).isNone
  components := cs.filter fun c => (Component.ofConcept? c).isSome
  triggers := Trigger.ofComponents (cs.filterMap Component.ofConcept?)

/-! ## Stored triggers -/

namespace FactBase

/-- The variable for the name of a trigger. -/
def triggerVariable : Concept := .atom "$trigger"

/-- The variable for the argument of a component. -/
def argumentVariable : Concept := .atom "$arg"

/-- The rule that the stored components of a role answer. -/
def componentRule (role : Role) : Concept :=
  Component.toConcept ⟨triggerVariable, role, argumentVariable⟩

/-- The component of a role that an answer to its rule states. -/
def componentOf? (role : Role) (answer : Bindings) : Option Component := do
  let trigger ← answer[triggerVariable.key]?
  let argument ← answer[argumentVariable.key]?
  return ⟨trigger, role, argument⟩

/-- The triggers that stored facts define. Their arguments are patterns, so that the answers are
partial. -/
def triggers (base : FactBase) (t : Storage.Table) : Except Error (List Trigger) := do
  let found ← Role.all.mapM fun role => do
    return (← base.answers t [componentRule role] true).filterMap (componentOf? role)
  return Trigger.ofComponents found.flatten

end FactBase

end ConceptSpace
