import ConceptSpace.Source.Reading
import ConceptSpace.Source.SelfReference

/-!
# What source text denotes

Source text denotes a list of concepts: its tokens make an outline, each reading of the outline a
sequence of parts, and each sequence a concept. Each concept is listed once, where it comes first.

Keys are read in the same way, except that `&` is an ordinary word in them.
-/

namespace ConceptSpace.Source

/-- The concepts that text denotes, where the passes are applied in turn to each sequence of
parts. -/
def denote (passes : List (List Concept → List Concept)) (source : String) :
    Except Error (List Concept) := do
  let tokens ← tokenize source
  let root ← outline source tokens
  let sequences := root.readings.map fun reading =>
    passes.foldl (fun parts pass => pass parts) reading.parts
  return Concept.distinct (sequences.filterMap Concept.ofParts?)

/-- The concepts that one source text denotes. -/
def concepts (source : String) : Except Error (List Concept) :=
  denote [Concept.resolveSelf] source

/-- The concepts that several source texts denote, read as lines of one text. -/
def conceptsOf (sources : List String) : Except Error (List Concept) :=
  concepts ("\n".intercalate sources)

/-- The first concept that a source text denotes. -/
def concept (source : String) : Except Error Concept :=
  concepts source >>= fun cs =>
    match cs with
    | [] => .error .empty
    | c :: _ => .ok c

/-- The one concept that a key names. -/
def ofKey (key : String) : Except Error Concept :=
  denote [] key >>= fun cs =>
    match cs with
    | [] => .error .empty
    | [c] => .ok c
    | _ => .error (.severalConcepts key cs.length)

/-- Whether source text can produce a word: free text between `<<` and `>>`, or at least one
character, none of them white space, comma or bracket. -/
def isWord (word : String) : Bool :=
  Concept.isLiteralWord word || (!word.toList.isEmpty && word.toList.all Token.isWordChar)

/-- The atom of a word. -/
def atom (word : String) : Except Error Concept :=
  if isWord word then .ok (.atom word) else .error (.invalidWord word)

end ConceptSpace.Source
