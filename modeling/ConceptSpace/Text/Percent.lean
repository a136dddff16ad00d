/-!
# Percent escapes

Text as a run of unreserved ASCII characters: letters, digits and `-_.!~*'()` stand for themselves,
every other character is written byte by byte in UTF-8, each byte as `%` and two upper-case
hexadecimal digits. Reading is more liberal: any character may stand for itself, hexadecimal digits
may be lower-case, and a plus sign may stand for the leading zero.
-/

namespace ConceptSpace.Text.Percent

/-- Whether a character stands for itself in escaped text. -/
def isUnreserved (c : Char) : Bool :=
  c.isAlphanum || ['-', '_', '.', '!', '~', '*', '\'', '(', ')'].contains c

/-- The upper-case hexadecimal digit of a number below sixteen. -/
def hexDigit (n : Nat) : Char :=
  if n < 10 then Char.ofNat ('0'.toNat + n) else Char.ofNat ('A'.toNat + (n - 10))

/-- `%` and the two hexadecimal digits of a byte. -/
def escapeByte (b : UInt8) : List Char :=
  ['%', hexDigit (b.toNat / 16), hexDigit (b.toNat % 16)]

/-- The escaped form of a character. -/
def escapeChar (c : Char) : List Char :=
  if isUnreserved c then [c] else (String.utf8EncodeChar c).flatMap escapeByte

/-- The escaped form of a text. -/
def escape (cs : List Char) : List Char :=
  cs.flatMap escapeChar

/-- The value of a hexadecimal digit of either case. -/
def hexValue? (c : Char) : Option Nat :=
  if '0' ≤ c ∧ c ≤ '9' then some (c.toNat - '0'.toNat)
  else if 'A' ≤ c ∧ c ≤ 'F' then some (c.toNat - 'A'.toNat + 10)
  else if 'a' ≤ c ∧ c ≤ 'f' then some (c.toNat - 'a'.toNat + 10)
  else none

/-- The byte that two characters behind `%` stand for. -/
def hexByte? (high low : Char) : Option UInt8 := do
  let h ← if high = '+' then some 0 else hexValue? high
  let l ← hexValue? low
  return UInt8.ofNat (16 * h + l)

/-- The bytes that escaped text stands for; `none` at an incomplete or malformed escape. -/
def bytes? : List Char → Option (List UInt8)
  | [] => some []
  | '%' :: high :: low :: cs => do
    let b ← hexByte? high low
    let more ← bytes? cs
    return b :: more
  | c :: cs =>
    if c = '%' then none else (bytes? cs).map (String.utf8EncodeChar c ++ ·)

/-- The text that escaped text stands for; `none` if an escape is malformed or the bytes are not
UTF-8. -/
def unescape? (cs : List Char) : Option (List Char) := do
  let bytes ← bytes? cs
  let text ← String.fromUTF8? ⟨bytes.toArray⟩
  return text.toList

example : escape "a b/é".toList = "a%20b%2F%C3%A9".toList := by decide +kernel
example : unescape? "a%20b%2f%c3%A9%+A".toList = some "a b/é\n".toList := by decide +kernel
example : unescape? "%C3".toList = none ∧ unescape? "a%2".toList = none := by decide +kernel

end ConceptSpace.Text.Percent
