import ConceptSpace.Source.Error
import ConceptSpace.Text.Whitespace

/-!
# Tokens

Source text cut into tokens. At every place the rules are tried in this order, and the first that
fits wins:

1. a run of blanks, commas and newlines: a *branch* if it holds a comma or a newline, otherwise
   *spaces*;
2. a comment, from `/*` up to the first `*/` behind at least one character;
3. a literal, from `<<` up to the first `>>` behind at least one character;
4. a bracket;
5. an atom: a run of characters that are neither white space, comma nor bracket.

Blanks are the space, the tab and the carriage return. Other white space starts no token.
-/

namespace ConceptSpace.Source

/-- The kinds of blocks. -/
inductive Bracket where
  /-- `{ … }`: the alternatives are spliced into the surrounding compound. -/
  | inline
  /-- `[ … ]`: each alternative becomes one nested part. -/
  | nested
  /-- `( … )`: each alternative becomes a fact of its own about the part before the block. -/
  | parenthetical
  deriving DecidableEq, Repr

namespace Bracket

/-- The character that opens a block. -/
def opening : Bracket → Char
  | .inline => '{'
  | .nested => '['
  | .parenthetical => '('

/-- The character that closes a block. -/
def closing : Bracket → Char
  | .inline => '}'
  | .nested => ']'
  | .parenthetical => ')'

end Bracket

/-- The kinds of tokens. -/
inductive TokenKind where
  /-- A comma or newline with the separators around it. -/
  | branch
  /-- Blanks. -/
  | spaces
  /-- A comment within one line, which means nothing. -/
  | comment
  /-- A comment over several lines, which separates like a newline. -/
  | multiLineComment
  /-- Free text between `<<` and `>>`. -/
  | literal
  /-- The start of a block. -/
  | opening (bracket : Bracket)
  /-- The end of a block. -/
  | closing (bracket : Bracket)
  /-- A word. -/
  | atom
  deriving DecidableEq, Repr

/-- A piece of source text. -/
structure Token where
  /-- What the token is. -/
  kind : TokenKind
  /-- The text of the token. -/
  text : String
  /-- The byte offset at which it starts. -/
  start : Nat
  deriving DecidableEq, Repr

namespace Token

/-- The byte offset behind a token. -/
def stop (t : Token) : Nat :=
  t.start + t.text.utf8ByteSize

/-! ## Character classes -/

/-- The characters that separate branches. -/
def isBreak (c : Char) : Bool :=
  c == '\n' || c == ','

/-- The characters that separate tokens. -/
def isSeparator (c : Char) : Bool :=
  isBreak c || c == ' ' || c == '\t' || c == '\r'

/-- The characters that words may not contain, white space apart. -/
def isReserved (c : Char) : Bool :=
  [',', '{', '}', '[', ']', '(', ')'].contains c

/-- The characters that words are made of. -/
def isWordChar (c : Char) : Bool :=
  !isReserved c && !Text.isWhitespace c

/-- The token that a bracket makes. -/
def bracket? : Char → Option TokenKind
  | '{' => some (.opening .inline)
  | '[' => some (.opening .nested)
  | '(' => some (.opening .parenthetical)
  | '}' => some (.closing .inline)
  | ']' => some (.closing .nested)
  | ')' => some (.closing .parenthetical)
  | _ => none

/-! ## One token -/

/-- The number of characters up to the end of the first `ab`, if there is one. -/
def through (a b : Char) : List Char → Option Nat
  | c :: d :: cs => if c = a ∧ d = b then some 2 else (through a b (d :: cs)).map (· + 1)
  | _ => none

/-- For text behind an opening mark: the number of characters through the first closing mark `ab`
that has at least one character before it. -/
def body (a b : Char) : List Char → Option Nat
  | [] => none
  | _ :: cs => (through a b cs).map (· + 1)

/-- The comment that `/` may start: its kind, and how many of the following characters it takes. -/
def comment? : List Char → Option (TokenKind × Nat)
  | '*' :: cs => (body '*' '/' cs).map fun n =>
    (if (cs.take n).contains '\n' then .multiLineComment else .comment, n + 1)
  | _ => none

/-- The literal that `<` may start: its kind, and how many of the following characters it takes. -/
def literal? : List Char → Option (TokenKind × Nat)
  | '<' :: cs => (body '>' '>' cs).map fun n => (.literal, n + 1)
  | _ => none

/-- The comment or literal that a character may start. -/
def enclosed? (c : Char) (cs : List Char) : Option (TokenKind × Nat) :=
  if c = '/' then comment? cs else if c = '<' then literal? cs else none

/-- The token that starts with the character `c`, where `cs` follows: its kind, and how many
characters of `cs` it takes. -/
def first? (c : Char) (cs : List Char) : Option (TokenKind × Nat) :=
  if isSeparator c then
    let run := cs.takeWhile isSeparator
    some (if (c :: run).any isBreak then .branch else .spaces, run.length)
  else
    match enclosed? c cs with
    | some found => some found
    | none =>
      match bracket? c with
      | some kind => some (kind, 0)
      | none => if isWordChar c then some (.atom, (cs.takeWhile isWordChar).length) else none

/-! ## All tokens -/

/-- Where a text cannot be cut any further: the byte offset, and the text from there on. -/
structure Stop where
  /-- The byte offset at which no token starts. -/
  offset : Nat
  /-- The text from there on. -/
  rest : List Char
  deriving DecidableEq, Repr

/-- Cuts text that starts at a byte offset into tokens. -/
def scan (offset : Nat) : List Char → Except Stop (List Token)
  | [] => .ok []
  | c :: cs =>
    match first? c cs with
    | none => .error ⟨offset, c :: cs⟩
    | some (kind, n) =>
      let token : Token := ⟨kind, String.ofList (c :: cs.take n), offset⟩
      (scan token.stop (cs.drop n)).map (token :: ·)
termination_by cs => cs.length

/-- The error for a text that cannot be cut. -/
def Stop.error (source : String) (stop : Stop) : Error :=
  .unexpectedInput (String.ofList (stop.rest.take 16)) (Position.ofOffset source stop.offset)

end Token

/-- Cuts source text into tokens. -/
def tokenize (source : String) : Except Error (List Token) :=
  (Token.scan 0 source.toList).mapError (Token.Stop.error source)

end ConceptSpace.Source
