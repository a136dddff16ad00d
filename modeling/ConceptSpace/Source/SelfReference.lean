import ConceptSpace.Concept.Basic

/-!
# Self-reference

In a sequence of parts, the word `&` behind the head stands for the head. A sequence in which it
occurs denotes what follows the head, with the head put in for every `&`; any other sequence
denotes itself.
-/

namespace ConceptSpace.Concept

mutual

/-- Whether `&` occurs in a concept, or is it. -/
def mentionsSelf : Concept → Bool
  | .atom word => word == selfReference
  | .compound parts => anyMentionsSelf parts

/-- Whether `&` occurs in one of several concepts. -/
def anyMentionsSelf : List Concept → Bool
  | [] => false
  | part :: more => part.mentionsSelf || anyMentionsSelf more

end

mutual

/-- Puts `head` in for every `&` of a concept. Sets are put in order again. -/
def replaceSelf (head : Concept) : Concept → Concept
  | .atom word => if word == selfReference then head else .atom word
  | .compound parts => (ofParts? (replaceSelfAll head parts)).getD (.compound parts)

/-- Puts `head` in for every `&` of several concepts. -/
def replaceSelfAll (head : Concept) : List Concept → List Concept
  | [] => []
  | part :: more => replaceSelf head part :: replaceSelfAll head more

end

theorem anyMentionsSelf_eq_any (cs : List Concept) :
    anyMentionsSelf cs = cs.any mentionsSelf := by
  induction cs with
  | nil => rfl
  | cons c cs ih => simp [anyMentionsSelf, ih]

theorem replaceSelfAll_eq_map (head : Concept) (cs : List Concept) :
    replaceSelfAll head cs = cs.map (replaceSelf head) := by
  induction cs with
  | nil => rfl
  | cons c cs ih => simp [replaceSelfAll, ih]

/-- Resolves `&` in a sequence of parts. -/
def resolveSelf : List Concept → List Concept
  | [] => []
  | head :: rest =>
    if anyMentionsSelf rest then replaceSelfAll head rest else head :: rest

end ConceptSpace.Concept
