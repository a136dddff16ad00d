import ConceptSpace.Toml.Scalar

/-!
# TOML documents

A TOML document is a table of named values. Lines `name = value` fill the table opened by the header
`[name]` before them; names may be paths with dots. A name is given a value only once, and a table
is opened by a header only once.

Texts, integers and truth values are kept; other values are checked for their form only.
-/

namespace ConceptSpace.Toml

/-! ## Tables -/

/-- How a table came to be. -/
inductive Origin where
  /-- On the way to another table that a header opened. -/
  | implied
  /-- By a path with dots. -/
  | dotted
  /-- By a header of its own. -/
  | opened
  deriving DecidableEq, Repr

/-- What a name stands for. -/
inductive Item where
  /-- A text. -/
  | text (s : String)
  /-- An integer. -/
  | integer (n : Int)
  /-- A truth value. -/
  | flag (b : Bool)
  /-- A real number, date, time, array or inline table. -/
  | opaqueValue
  /-- A table. -/
  | table (origin : Origin) (entries : List (String × Item))
  /-- Tables in a row, of which the last one is open. -/
  | tables (last : List (String × Item))

/-- Named items. -/
abbrev Entries := List (String × Item)

/-- Gives a name the item that `change` makes of its present one; `none` if `change` refuses. -/
def alter? (name : String) (change : Option Item → Option Item) : Entries → Option Entries
  | [] => (change none).map fun item => [(name, item)]
  | (found, item) :: more =>
    if found = name then (change (some item)).map fun item => (found, item) :: more
    else (alter? name change more).map ((found, item) :: ·)

/-- Gives a path with dots an item. The path goes through tables that it makes, that another path with
dots has made, or that a header has implied; the one that holds the item is not of the last kind. -/
def assign? (item : Item) : List String → Entries → Option Entries
  | [], _ => none
  | [name], entries =>
    alter? name (fun found => match found with
      | none => some item
      | some _ => none) entries
  | name :: path, entries =>
    alter? name (fun found => match found with
      | none => (assign? item path []).map (.table .dotted)
      | some (.table .dotted inner) => (assign? item path inner).map (.table .dotted)
      | some (.table .implied inner) =>
        if path.length < 2 then none else (assign? item path inner).map (.table .implied)
      | some (.tables last) =>
        if path.length < 2 then none else (assign? item path last).map .tables
      | _ => none) entries

/-- Changes the last item of a path of tables. -/
def descend? (change : Option Item → Option Item) : List String → Entries → Option Entries
  | [], _ => none
  | [name], entries => alter? name change entries
  | name :: path, entries =>
    alter? name (fun found => match found with
      | none => (descend? change path []).map (.table .implied)
      | some (.table origin inner) => (descend? change path inner).map (.table origin)
      | some (.tables last) => (descend? change path last).map .tables
      | _ => none) entries

/-- Opens a table. -/
def openTable? : List String → Entries → Option Entries :=
  descend? fun found => match found with
    | none => some (.table .opened [])
    | some (.table .implied inner) => some (.table .opened inner)
    | _ => none

/-- Opens one more table of a row. -/
def openNextTable? : List String → Entries → Option Entries :=
  descend? fun found => match found with
    | none => some (.tables [])
    | some (.tables _) => some (.tables [])
    | _ => none

/-- Gives a path an item, within the table that a header opened; no header stands for the whole
document. -/
def assignWithin? (header : List String) (path : List String) (item : Item)
    (entries : Entries) : Option Entries :=
  if header.isEmpty then assign? item path entries
  else
    descend? (fun found => match found with
      | some (.table origin inner) => (assign? item path inner).map (.table origin)
      | some (.tables last) => (assign? item path last).map .tables
      | _ => none) header entries

/-! ## Paths and values -/

/-- A character of a name without quotes. -/
def isNameChar (c : Char) : Bool :=
  c.isAlphanum || c == '_' || c == '-'

/-- A name. -/
def name? (cs : List Char) : Option (String × List Char) :=
  match cs with
  | '"' :: '"' :: '"' :: _ => none
  | '\'' :: '\'' :: '\'' :: _ => none
  | '"' :: _ => quoted? cs
  | '\'' :: _ => quoted? cs
  | _ =>
    match cs.span isNameChar with
    | ([], _) => none
    | (name, rest) => some (String.ofList name, rest)

/-- The greatest number of names in a path, and of arrays and inline tables within each other. -/
def depthLimit : Nat := 79

/-- Names with dots between them, at most `limit`. -/
def path? : Nat → List Char → Option (List String × List Char)
  | 0, _ => none
  | limit + 1, cs => do
    let (name, rest) ← name? (skipBlanks cs)
    match skipBlanks rest with
    | '.' :: more =>
      let (path, rest) ← path? limit more
      return (name :: path, rest)
    | rest => return ([name], rest)

/-- The item that a word writes. -/
def wordItem? (cs : List Char) : Option Item :=
  if cs == ['t', 'r', 'u', 'e'] then some (.flag true)
  else if cs == ['f', 'a', 'l', 's', 'e'] then some (.flag false)
  else
    match integer? cs with
    | some n => some (.integer n)
    | none => if isReal cs || isMoment cs then some .opaqueValue else none

mutual

/-- A value. `limit` bounds the length of the text, and `depth` how far it goes into arrays and inline
tables. -/
def value? : Nat → Nat → List Char → Option (Item × List Char)
  | 0, _, _ => none
  | limit + 1, depth, cs =>
    match cs with
    | '"' :: _ => (quoted? cs).map fun (text, rest) => (.text text, rest)
    | '\'' :: _ => (quoted? cs).map fun (text, rest) => (.text text, rest)
    | '[' :: rest =>
      match depth with
      | 0 => none
      | depth + 1 => (elements? limit depth rest).map (.opaqueValue, ·)
    | '\x7b' :: rest =>
      match depth with
      | 0 => none
      | depth + 1 =>
        match skipBlanks rest with
        | '\x7d' :: rest => some (.opaqueValue, rest)
        | rest => (members? limit depth [] rest).map (.opaqueValue, ·)
    | _ =>
      let (found, rest) := word cs
      (wordItem? found).map (·, rest)

/-- The text behind the elements of an array. -/
def elements? : Nat → Nat → List Char → Option (List Char)
  | 0, _, _ => none
  | limit + 1, depth, cs =>
    match skipLines limit cs with
    | ']' :: rest => some rest
    | start => do
      let (_, rest) ← value? limit depth start
      match skipLines limit rest with
      | ',' :: more => elements? limit depth more
      | ']' :: rest => some rest
      | _ => none

/-- The text behind the members of an inline table. -/
def members? : Nat → Nat → Entries → List Char → Option (List Char)
  | 0, _, _, _ => none
  | limit + 1, depth, entries, cs => do
    let (path, rest) ← path? depthLimit cs
    match rest with
    | '=' :: rest =>
      let (item, rest) ← value? limit depth (skipBlanks rest)
      let entries ← assign? item path entries
      match skipBlanks rest with
      | ',' :: more => members? limit depth entries more
      | '\x7d' :: rest => some rest
      | _ => none
    | _ => none

end

/-! ## Lines -/

/-- A document that is read in part: its items, and the table that is open. -/
structure Draft where
  /-- The items so far. -/
  entries : Entries := []
  /-- The path of the open table. -/
  header : List String := []

/-- Reads one line, or a value over several lines; also gives the text behind. -/
def line? (draft : Draft) (cs : List Char) : Option (Draft × List Char) :=
  let bound := 2 * cs.length + 2
  match skipBlanks cs with
  | '[' :: '[' :: rest => do
    let (path, rest) ← path? depthLimit rest
    match rest with
    | ']' :: ']' :: rest =>
      return (⟨← openNextTable? path draft.entries, path⟩, ← restOfLine? rest)
    | _ => none
  | '[' :: rest => do
    let (path, rest) ← path? depthLimit rest
    match rest with
    | ']' :: rest => return (⟨← openTable? path draft.entries, path⟩, ← restOfLine? rest)
    | _ => none
  | start =>
    match restOfLine? start with
    | some rest => some (draft, rest)
    | none => do
      let (path, rest) ← path? depthLimit start
      match rest with
      | '=' :: rest =>
        let (item, rest) ← value? bound depthLimit (skipBlanks rest)
        let entries ← assignWithin? draft.header path item draft.entries
        return (⟨entries, draft.header⟩, ← restOfLine? rest)
      | _ => none

/-- Reads at most `limit` lines. -/
def lines? : Nat → Draft → List Char → Option Entries
  | _, draft, [] => some draft.entries
  | 0, _, _ => none
  | limit + 1, draft, cs => do
    let (draft, rest) ← line? draft cs
    lines? limit draft rest

/-- The mark that may stand in front of a text. -/
def byteOrderMark : Char := Char.ofNat 0xFEFF

/-- Drops the mark in front of a text. -/
def skipMark : List Char → List Char
  | c :: cs => if c = byteOrderMark then cs else c :: cs
  | [] => []

/-- The items of a document; `none` if it is malformed. -/
def document? (source : String) : Option Entries :=
  let cs := skipMark source.toList
  lines? (cs.length + 1) {} cs

end ConceptSpace.Toml
