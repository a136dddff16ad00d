/-!
# Quoted text

Text between double quotes, for display to a person who looks into a program. The quote, the
backslash, and the usual control characters have an escape of two characters; other control
characters are written as their code point in hexadecimal, between braces. The form is meant for
ASCII text; other characters stand for themselves.
-/

namespace ConceptSpace.Text.Quoted

/-- The lower-case hexadecimal digits of a number, without leading zeros. -/
def hexadecimal (n : Nat) : List Char :=
  Nat.toDigits 16 n

/-- A character between quotes. -/
def escapeChar (c : Char) : List Char :=
  if c = '"' then ['\\', '"']
  else if c = '\\' then ['\\', '\\']
  else if c = '\n' then ['\\', 'n']
  else if c = '\r' then ['\\', 'r']
  else if c = '\t' then ['\\', 't']
  else if c.toNat = 0 then ['\\', '0']
  else if c.toNat < 0x20 ∨ c.toNat = 0x7F then
    '\\' :: 'u' :: '{' :: (hexadecimal c.toNat ++ ['}'])
  else [c]

/-- Text between quotes. -/
def quote (text : String) : String :=
  String.ofList ('"' :: (text.toList.flatMap escapeChar ++ ['"']))

example : quote "a \"b\"\n" = "\"a \\\"b\\\"\\n\"" := by decide +kernel
example : quote "\x1b" = "\"\\u\x7b1b\x7d\"" := by decide +kernel

end ConceptSpace.Text.Quoted
