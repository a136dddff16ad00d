import ConceptSpace.Concept.Basic
import ConceptSpace.Storage.Error
import ConceptSpace.Text.Numeral
import ConceptSpace.Text.Percent

/-!
# Storage keys

Every key that a space writes is made here from the keys of concepts:

* `concept:KEY` says that a fact is stored;
* `concept/index/container:PART/POSITION/CONTAINER` is an edge from a part to a concept around it;
* `mask/match:MASK/VALUE;…;VALUE` is the index entry of a fact under a mask;
* `mask/matchCount:MASK` holds the number of entries under a mask;
* `space/concept/data:SPACE/KEY` names the text attached to a fact.

The key of a concept is embedded in encoded form: its brackets are taken out, their byte offsets
are listed behind it as `|OPENING|CLOSING`, and the whole is percent-escaped. An encoded key holds
none of the characters that separate the fields, so that each stem lists the keys of one family.
-/

namespace ConceptSpace.Storage.Key

/-! ## Encoded keys -/

/-- The byte offsets of a character in text that starts at an offset. -/
def offsetsOf (x : Char) (offset : Nat) : List Char → List Nat
  | [] => []
  | c :: cs =>
    let more := offsetsOf x (offset + c.utf8Size) cs
    if c = x then offset :: more else more

/-- Text without brackets. -/
def unbracketed (cs : List Char) : List Char :=
  cs.filter fun c => !(c == '[' || c == ']')

/-- Offsets in decimal, with semicolons between them. -/
def offsetList (offsets : List Nat) : List Char :=
  [';'].intercalate (offsets.map (Nat.toDigits 10))

/-- Text with its brackets moved behind it. -/
def bracketsLast (cs : List Char) : List Char :=
  unbracketed cs ++ '|' :: (offsetList (offsetsOf '[' 0 cs) ++
    '|' :: offsetList (offsetsOf ']' 0 cs))

/-- The encoded form of a concept's key. -/
def encode (key : String) : String :=
  String.ofList (Text.Percent.escape (bracketsLast key.toList))

/-- Splits text at the last occurrence of a character. -/
def splitLast? (x : Char) (cs : List Char) : Option (List Char × List Char) :=
  match cs.reverse.span (· ≠ x) with
  | (_, []) => none
  | (behind, _ :: before) => some (before.reverse, behind.reverse)

/-- The offsets that a list names; empty fields do not count. -/
def offsets? (cs : List Char) : Option (List Nat) :=
  ((cs.splitOn ';').filter (!·.isEmpty)).mapM Text.word?

/-- Inserts a character at a byte offset, which has to be one between characters. -/
def insertAt? : Nat → Char → List Char → Option (List Char)
  | 0, x, cs => some (x :: cs)
  | _ + 1, _, [] => none
  | offset + 1, x, c :: cs =>
    if c.utf8Size ≤ offset + 1 then (insertAt? (offset + 1 - c.utf8Size) x cs).map (c :: ·)
    else none

/-- The order in which brackets are put back: by offset, an opening bracket before a closing
one. -/
def placeLe (a b : Nat × Char) : Bool :=
  a.1 < b.1 || (a.1 == b.1 && a.2 ≤ b.2)

/-- Text with the brackets behind it put back. -/
def bracketsBack? (cs : List Char) : Option (List Char) := do
  let (front, closings) ← splitLast? '|' cs
  let (text, openings) ← splitLast? '|' front
  let opened ← offsets? openings
  let closed ← offsets? closings
  let places := Sequence.sortBy placeLe (opened.map (·, '[') ++ closed.map (·, ']'))
  places.foldlM (fun acc (offset, bracket) => insertAt? offset bracket acc) text

/-- The concept's key that has an encoded form. -/
def decode (encoded : String) : Except Error String :=
  match Text.Percent.unescape? encoded.toList >>= bracketsBack? with
  | some cs => .ok (String.ofList cs)
  | none => .error (.malformedKey encoded)

/-! ## Families of keys -/

/-- What the keys of stored facts start with. -/
def factStem : String := "concept:"

/-- What the keys of containment edges start with. -/
def containmentStem : String := "concept/index/container:"

/-- What the keys of index entries start with. -/
def maskMatchStem : String := "mask/match:"

/-- What the keys of counters start with. -/
def maskCountStem : String := "mask/matchCount:"

/-- What the keys of attached texts start with. -/
def attachedStem : String := "space/concept/data:"

/-- The key that says that a fact is stored. -/
def fact (c : Concept) : String :=
  factStem ++ encode c.key

/-- The edge from the part at a position to the concept around it. -/
def containment (part : Concept) (position : Nat) (container : Concept) : String :=
  containmentStem ++ encode part.key ++ "/" ++ toString position ++ "/" ++ encode container.key

/-- The edges from all parts of a concept, in order. -/
def containments (container : Concept) : List String :=
  container.parts.mapIdx fun position part => containment part position container

/-- What the edges from a part start with. -/
def containmentsOf (part : Concept) : String :=
  containmentStem ++ encode part.key ++ "/"

/-- What the index entries under a mask start with. -/
def maskMatches (mask : Concept) : String :=
  maskMatchStem ++ encode mask.key ++ "/"

/-- The index entry of a fact that has the given parts at the variables of a mask. -/
def maskMatch (mask : Concept) (values : List Concept) : String :=
  maskMatches mask ++ ";".intercalate (values.map fun value => encode value.key)

/-- The counter of a mask. -/
def maskCount (mask : Concept) : String :=
  maskCountStem ++ encode mask.key

/-- The name of the text attached to a fact of a space. -/
def attached (space : String) (c : Concept) : String :=
  attachedStem ++ space ++ "/" ++ encode c.key

/-! ## Reading keys -/

/-- What follows a stem; `none` if the text does not start with it. -/
def after? : List Char → List Char → Option (List Char)
  | [], cs => some cs
  | s :: stem, c :: cs => if s = c then after? stem cs else none
  | _ :: _, [] => none

/-- A containment edge. -/
structure Edge where
  /-- The key of the part. -/
  part : String
  /-- The position of the part. -/
  position : Nat
  /-- The key of the concept around it. -/
  container : String
  deriving DecidableEq, Repr

/-- The concept's key in the key of a stored fact. -/
def readFact (key : String) : Except Error String :=
  match after? factStem.toList key.toList with
  | some rest => decode (String.ofList rest)
  | none => .error (.malformedKey key)

/-- The fields of a containment edge. -/
def readContainment (key : String) : Except Error Edge :=
  match (after? containmentStem.toList key.toList).map (·.splitOn '/') with
  | some [part, position, container] => do
    let part ← decode (String.ofList part)
    match Text.word? position with
    | some position => return ⟨part, position, ← decode (String.ofList container)⟩
    | none => .error (.malformedKey key)
  | _ => .error (.malformedKey key)

/-- The keys of the values in an index entry, in the order of the variables. -/
def readMaskMatch (key : String) : Except Error (List String) :=
  match (after? maskMatchStem.toList key.toList).map (·.dropWhile (· ≠ '/')) with
  | some ('/' :: values) =>
    if values.isEmpty then .ok []
    else (values.splitOn ';').mapM fun value => decode (String.ofList value)
  | _ => .error (.malformedKey key)

example : encode "a [b]" = "a%20b%7C2%7C4" := by decide +kernel
example : (decode "a%20b%7C2%7C4").toOption = some "a [b]" := by decide +kernel

end ConceptSpace.Storage.Key
