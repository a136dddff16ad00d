import ConceptSpace.Storage.Store

/-!
# Snapshots

The text that a durable store is kept as between runs of the program: a heading, then a line for each
entry of the table and for each attached text, made of a word for the kind, the key, and the value.
Keys and values are percent-escaped, so that blanks and line ends separate.
-/

namespace ConceptSpace.Storage.Snapshot

/-- The first line. -/
def heading : String := "concept space"

/-- The word in front of an entry of the table. -/
def tableWord : List Char := ['f', 'a', 'c', 't']

/-- The word in front of an attached text. -/
def textWord : List Char := ['t', 'e', 'x', 't']

/-- A line of a snapshot. -/
def line (kind : List Char) (key : String) (value : List Char) : List Char :=
  kind ++ ' ' :: (Text.Percent.escape key.toList ++ ' ' :: (value ++ ['\n']))

/-- The text that a store is kept as. -/
def render (s : Store) : String :=
  let table := s.table.toList.flatMap fun (key, value) =>
    line tableWord key (value.flatMap Text.Percent.escapeByte)
  let texts := s.texts.toList.flatMap fun (key, text) =>
    line textWord key (Text.Percent.escape text.toList)
  String.ofList (heading.toList ++ '\n' :: (table ++ texts))

/-- Takes over one line. -/
def addLine? (s : Store) (cs : List Char) : Option Store :=
  match cs.splitOn ' ' with
  | [kind, key, value] => do
    let key := String.ofList (← Text.Percent.unescape? key)
    if kind = tableWord then
      return { s with table := s.table.insert key (← Text.Percent.bytes? value) }
    else if kind = textWord then
      let text := String.ofList (← Text.Percent.unescape? value)
      return { s with texts := s.texts.insert key text }
    else none
  | _ => none

/-- The durable store that a text keeps; `none` if the text is no snapshot. -/
def parse? (source : String) : Option Store :=
  match source.toList.splitOn '\n' with
  | first :: lines =>
    if first = heading.toList then
      (lines.filter (!·.isEmpty)).foldlM addLine? (Store.create .durable)
    else none
  | [] => none

end ConceptSpace.Storage.Snapshot
