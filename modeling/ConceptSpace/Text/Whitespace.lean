/-!
# White space

The characters with the Unicode property `White_Space`. Twenty-five code points have it, and the
list has been the same since Unicode 6.3.
-/

namespace ConceptSpace.Text

/-- The code points with the property, as inclusive ranges in ascending order. -/
def whitespaceRanges : List (Nat × Nat) :=
  [(0x09, 0x0D), (0x20, 0x20), (0x85, 0x85), (0xA0, 0xA0), (0x1680, 0x1680), (0x2000, 0x200A),
    (0x2028, 0x2029), (0x202F, 0x202F), (0x205F, 0x205F), (0x3000, 0x3000)]

/-- Whether a character is white space. -/
def isWhitespace (c : Char) : Bool :=
  whitespaceRanges.any fun (low, high) => low ≤ c.toNat && c.toNat ≤ high

/-- Drops white space from both ends. -/
def trim (cs : List Char) : List Char :=
  ((cs.dropWhile isWhitespace).reverse.dropWhile isWhitespace).reverse

/-- The property has twenty-five members. -/
example : (whitespaceRanges.map fun (low, high) => high - low + 1).sum = 25 := by decide

/-- The blanks that separate tokens are white space. -/
example : [' ', '\t', '\r', '\n'].all isWhitespace = true := by decide

end ConceptSpace.Text
