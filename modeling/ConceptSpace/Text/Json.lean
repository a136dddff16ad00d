import ConceptSpace.Text.Percent

/-!
# JSON text

The two shapes of JSON that a space exchanges: a string, read and written, and an object of
strings, written on one line. A string escapes the quote, the backslash and the control characters
and nothing else. Reading follows the standard to the letter: control characters have to be
escaped, surrogates have to come in pairs, and nothing but white space may surround the string.
-/

namespace ConceptSpace.Text.Json

/-! ## Writing -/

/-- The lower-case hexadecimal digit of a number below sixteen. -/
def hexDigit (n : Nat) : Char :=
  if n < 10 then Char.ofNat ('0'.toNat + n) else Char.ofNat ('a'.toNat + (n - 10))

/-- A character of a string. -/
def escapeChar (c : Char) : List Char :=
  if c = '"' then ['\\', '"']
  else if c = '\\' then ['\\', '\\']
  else if c = '\n' then ['\\', 'n']
  else if c = '\r' then ['\\', 'r']
  else if c = '\t' then ['\\', 't']
  else if c.toNat = 0x08 then ['\\', 'b']
  else if c.toNat = 0x0C then ['\\', 'f']
  else if c.toNat < 0x20 then
    ['\\', 'u', '0', '0', hexDigit (c.toNat / 16), hexDigit (c.toNat % 16)]
  else [c]

/-- A text as a JSON string. -/
def renderString (text : String) : String :=
  String.ofList ('"' :: (text.toList.flatMap escapeChar ++ ['"']))

/-- Texts as a JSON object, in the order given. -/
def renderObject (members : List (String × String)) : String :=
  let entries := members.map fun (name, value) => renderString name ++ ":" ++ renderString value
  "\x7b" ++ ",".intercalate entries ++ "\x7d"

/-! ## Reading -/

/-- The characters that may stand around a value. -/
def isBlank (c : Char) : Bool :=
  c == ' ' || c == '\t' || c == '\n' || c == '\r'

/-- The number that four hexadecimal digits write. -/
def unit? (a b c d : Char) : Option Nat := do
  let a ← Percent.hexValue? a
  let b ← Percent.hexValue? b
  let c ← Percent.hexValue? c
  let d ← Percent.hexValue? d
  return ((a * 16 + b) * 16 + c) * 16 + d

/-- The character that a backslash and one other character write. -/
def shortEscape? (c : Char) : Option Char :=
  if c = '"' then some '"'
  else if c = '\\' then some '\\'
  else if c = '/' then some '/'
  else if c = 'b' then some '\x08'
  else if c = 'f' then some '\x0c'
  else if c = 'n' then some '\n'
  else if c = 'r' then some '\r'
  else if c = 't' then some '\t'
  else none

/-- Whether a UTF-16 unit starts a pair. -/
def isLeading (unit : Nat) : Bool :=
  0xD800 ≤ unit && unit < 0xDC00

/-- Whether a UTF-16 unit ends a pair. -/
def isTrailing (unit : Nat) : Bool :=
  0xDC00 ≤ unit && unit < 0xE000

/-- The content of a string behind its opening quote, and the text behind its closing quote. -/
def content? : List Char → Option (List Char × List Char)
  | [] => none
  | '"' :: cs => some ([], cs)
  | '\\' :: 'u' :: a :: b :: c :: d :: '\\' :: 'u' :: e :: f :: g :: h :: cs => do
    let first ← unit? a b c d
    if isLeading first then
      let second ← unit? e f g h
      if isTrailing second then
        let code := 0x10000 + (first - 0xD800) * 0x400 + (second - 0xDC00)
        let (more, rest) ← content? cs
        return (Char.ofNat code :: more, rest)
      else none
    else if isTrailing first then none
    else
      let (more, rest) ← content? ('\\' :: 'u' :: e :: f :: g :: h :: cs)
      return (Char.ofNat first :: more, rest)
  | '\\' :: 'u' :: a :: b :: c :: d :: cs => do
    let unit ← unit? a b c d
    if isLeading unit || isTrailing unit then none
    else
      let (more, rest) ← content? cs
      return (Char.ofNat unit :: more, rest)
  | '\\' :: c :: cs => do
    let found ← shortEscape? c
    let (more, rest) ← content? cs
    return (found :: more, rest)
  | c :: cs =>
    if c = '\\' ∨ c.toNat < 0x20 then none
    else (content? cs).map fun (more, rest) => (c :: more, rest)

/-- The text that a JSON document states, if the document is one string. -/
def parseString? (document : String) : Option String :=
  match document.toList.dropWhile isBlank with
  | '"' :: cs =>
    match content? cs with
    | some (text, rest) => if rest.all isBlank then some (String.ofList text) else none
    | none => none
  | _ => none

example : renderObject [("$x", "a \"b\""), ("$y", "c")] =
    "\x7b\"$x\":\"a \\\"b\\\"\",\"$y\":\"c\"\x7d" := by decide +kernel
example : parseString? " \"a\\u00e9\\n\" " = some "aé\n" := by decide +kernel
example : parseString? "\"\\ud83d\\ude00\"" = some "😀" ∧ parseString? "\"\\ud83d\"" = none := by
  decide +kernel
example : parseString? "\"a\" b" = none ∧ parseString? "\"a\nb\"" = none := by decide +kernel

end ConceptSpace.Text.Json
