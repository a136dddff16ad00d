/-!
# Positions in source text

Offsets count the bytes of the UTF-8 form; lines and columns count from one, columns in characters.
-/

namespace ConceptSpace.Source

/-- A place in source text, as shown to its author. -/
structure Position where
  /-- The line, counted from one. -/
  line : Nat
  /-- The column, counted from one in characters. -/
  column : Nat
  deriving DecidableEq, Repr, Inhabited

/-- The number of bytes that characters take. -/
def byteLength (cs : List Char) : Nat :=
  cs.foldr (fun c count => c.utf8Size + count) 0

/-- The characters that end at or before a byte offset. -/
def charsWithin (offset : Nat) : List Char → List Char
  | [] => []
  | c :: cs => if c.utf8Size ≤ offset then c :: charsWithin (offset - c.utf8Size) cs else []

namespace Position

/-- The position behind some text. -/
def after (text : List Char) : Position where
  line := text.count '\n' + 1
  column := (text.reverse.takeWhile (· ≠ '\n')).length + 1

/-- The position of a byte offset, which the end of the text bounds. An offset inside a character
counts as the start of that character. -/
def ofOffset (source : String) (offset : Nat) : Position :=
  after (charsWithin offset source.toList)

/-- The position of a byte offset; `none` if the offset is inside a character. -/
def ofOffset? (source : String) (offset : Nat) : Option Position :=
  if byteLength (charsWithin offset source.toList) = min offset (byteLength source.toList) then
    some (ofOffset source offset)
  else none

end Position

example : Position.ofOffset? "ab\ncd" 4 = some ⟨2, 2⟩ := by decide
example : Position.ofOffset? "é" 1 = none ∧ Position.ofOffset? "é" 9 = some ⟨1, 2⟩ := by decide

end ConceptSpace.Source
