import ConceptSpace.Sequence.Sorted
import ConceptSpace.Sequence.Distinct
import ConceptSpace.Text.Quoted

/-!
# Concepts

A concept is an atom, which is a word, or a compound, which is an ordered list of at least two
parts. Its *key* is its text: the words of the parts with single blanks between them, a compound
part in square brackets. Keys are what concepts are compared, ordered and stored by.

The first character of an atom gives it a role: `$` makes a variable and `@` a directive; an atom
between `<<` and `>>` is a literal. A compound whose first part is `:` is a set: its members are
kept in the order of their keys, so that the order they are written in does not matter.

Compounds are built by `Concept.node`, `Concept.pair` and `Concept.ofParts?`, which put the members
of sets in order.
-/

namespace ConceptSpace

/-- A tree of words. -/
inductive Concept where
  /-- A single word. -/
  | atom (word : String)
  /-- A sequence of parts. -/
  | compound (parts : List Concept)
  deriving Inhabited

namespace Concept

/-! ## Keys -/

mutual

/-- The text of a concept as a part of a compound. -/
def asPart : Concept → String
  | .atom word => word
  | .compound parts => "[" ++ spaced parts ++ "]"

/-- The texts of parts, with a blank between neighbours. -/
def spaced : List Concept → String
  | [] => ""
  | [part] => part.asPart
  | part :: next :: more => part.asPart ++ (" " ++ spaced (next :: more))

end

/-- The text of a concept, which identifies it. -/
def key : Concept → String
  | .atom word => word
  | .compound parts => spaced parts

/-- The direct parts; an atom has none. -/
def parts : Concept → List Concept
  | .atom _ => []
  | .compound parts => parts

/-- Whether a concept is a single word. -/
def isAtom : Concept → Bool
  | .atom _ => true
  | .compound _ => false

/-- Whether a concept has parts. -/
def isCompound (c : Concept) : Bool :=
  !c.isAtom

@[simp] theorem key_atom (word : String) : (atom word).key = word := rfl

@[simp] theorem parts_atom (word : String) : (atom word).parts = [] := rfl

@[simp] theorem parts_compound (ps : List Concept) : (compound ps).parts = ps := rfl

theorem spaced_cons_cons (c d : Concept) (cs : List Concept) :
    spaced (c :: d :: cs) = c.asPart ++ (" " ++ spaced (d :: cs)) := rfl

/-- The order in which concepts are listed: that of their keys by code point, which is also the
order of the bytes of their UTF-8 form. -/
def keyLe (a b : Concept) : Bool :=
  a.key ≤ b.key

/-- Whether two concepts are the same, which their keys decide. -/
def same (a b : Concept) : Bool :=
  a.key == b.key

/-- Keeps the first concept of each key. -/
def distinct (cs : List Concept) : List Concept :=
  Sequence.distinctBy key cs

/-! ## Roles of atoms -/

/-- Whether a word starts with a character. -/
def startsWith (first : Char) (word : String) : Bool :=
  word.toList.head? == some first

/-- A word that stands for an unknown concept: `$name`. -/
def isVariable : Concept → Bool
  | .atom word => startsWith '$' word
  | .compound _ => false

/-- A word that gives its neighbours a special meaning: `@name`. -/
def isDirective : Concept → Bool
  | .atom word => startsWith '@' word
  | .compound _ => false

/-- The mark in front of a literal. -/
def literalOpening : List Char := ['<', '<']

/-- The mark behind a literal. -/
def literalClosing : List Char := ['>', '>']

/-- Whether a word is free text between `<<` and `>>`. -/
def isLiteralWord (word : String) : Bool :=
  4 < word.utf8ByteSize && literalOpening.isPrefixOf word.toList &&
    literalClosing.isSuffixOf word.toList

/-- An atom that holds free text. -/
def isLiteral : Concept → Bool
  | .atom word => isLiteralWord word
  | .compound _ => false

/-- Drops `<<` in front, if it is there. -/
def dropOpening : List Char → List Char
  | '<' :: '<' :: cs => cs
  | cs => cs

/-- Drops `>>` at the end, if it is there. -/
def dropClosing (cs : List Char) : List Char :=
  match cs.reverse with
  | '>' :: '>' :: rest => rest.reverse
  | _ => cs

/-- The text to display: the key, without the marks of a literal. -/
def text : Concept → String
  | .atom word => String.ofList (dropClosing (dropOpening word.toList))
  | c => c.key

/-- The key between quotes, for display to a person who looks into a program. -/
def describe (c : Concept) : String :=
  "Concept(" ++ Text.Quoted.quote c.key ++ ")"

/-- The variable with a number for a name, as masks use it. -/
def numberedVariable (index : Nat) : Concept :=
  .atom ("$" ++ toString index)

/-! ## Building compounds -/

/-- The word that makes a compound a set. -/
def setMarker : String := ":"

/-- The word that refers back to the head of a fact. -/
def selfReference : String := "&"

/-- The compound of a head and its members; the members of a set are put in order. -/
def node (head : Concept) (members : List Concept) : Concept :=
  .compound (head :: if head.key == setMarker then Sequence.sortBy keyLe members else members)

/-- The compound of two parts. -/
def pair (head tail : Concept) : Concept :=
  node head [tail]

/-- The concept made of parts: nothing of none, the part itself of one, otherwise a compound. -/
def ofParts? : List Concept → Option Concept
  | [] => none
  | [part] => some part
  | head :: member :: members => some (node head (member :: members))

/-- Whether a concept is a compound headed by the set marker. -/
def isSet (c : Concept) : Bool :=
  match c.parts with
  | [] => false
  | head :: _ => head.key == setMarker

/-! ## Variables within concepts -/

mutual

/-- Whether a variable occurs in a concept, or is it. -/
def mentionsVariable : Concept → Bool
  | .atom word => startsWith '$' word
  | .compound parts => anyMentionsVariable parts

/-- Whether a variable occurs in one of several concepts. -/
def anyMentionsVariable : List Concept → Bool
  | [] => false
  | part :: more => part.mentionsVariable || anyMentionsVariable more

end

/-- A compound in which a variable occurs. -/
def isPattern (c : Concept) : Bool :=
  c.isCompound && c.mentionsVariable

mutual

/-- Whether every word of a concept is a variable. -/
def isAllVariables : Concept → Bool
  | .atom word => startsWith '$' word
  | .compound parts => areAllVariables parts

/-- Whether every word of several concepts is a variable. -/
def areAllVariables : List Concept → Bool
  | [] => true
  | part :: more => part.isAllVariables && areAllVariables more

end

theorem anyMentionsVariable_eq_any (cs : List Concept) :
    anyMentionsVariable cs = cs.any mentionsVariable := by
  induction cs with
  | nil => rfl
  | cons c cs ih => simp [anyMentionsVariable, ih]

theorem areAllVariables_eq_all (cs : List Concept) :
    areAllVariables cs = cs.all isAllVariables := by
  induction cs with
  | nil => rfl
  | cons c cs ih => simp [areAllVariables, ih]

/-! ## Parts at every depth -/

mutual

/-- Every part of a concept and of its parts, in reading order. -/
def inside : Concept → List Concept
  | .atom _ => []
  | .compound parts => insideAll parts

/-- Several concepts, each followed by what is inside it. -/
def insideAll : List Concept → List Concept
  | [] => []
  | part :: more => part :: (part.inside ++ insideAll more)

end

/-- Everything inside some concepts, each once. A concept of the list itself is included only if it
also stands inside one of them. -/
def deepParts (cs : List Concept) : List Concept :=
  distinct (cs.flatMap inside)

/-! ## Structural equality -/

mutual

/-- Structural equality of concepts is decidable. -/
def decEq : (a b : Concept) → Decidable (a = b)
  | .atom v, .atom w =>
    if h : v = w then .isTrue (h ▸ rfl) else .isFalse fun e => h (Concept.atom.inj e)
  | .compound ps, .compound qs =>
    match decEqList ps qs with
    | .isTrue h => .isTrue (h ▸ rfl)
    | .isFalse h => .isFalse fun e => h (Concept.compound.inj e)
  | .atom _, .compound _ => .isFalse nofun
  | .compound _, .atom _ => .isFalse nofun

/-- Structural equality of lists of concepts is decidable. -/
def decEqList : (as bs : List Concept) → Decidable (as = bs)
  | [], [] => .isTrue rfl
  | a :: as, b :: bs =>
    match decEq a b with
    | .isTrue h =>
      match decEqList as bs with
      | .isTrue t => .isTrue (h ▸ t ▸ rfl)
      | .isFalse t => .isFalse fun e => t (List.cons.inj e).2
    | .isFalse h => .isFalse fun e => h (List.cons.inj e).1
  | [], _ :: _ => .isFalse nofun
  | _ :: _, [] => .isFalse nofun

end

instance : DecidableEq Concept := decEq

end Concept

end ConceptSpace
