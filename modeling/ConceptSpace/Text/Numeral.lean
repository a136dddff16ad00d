/-!
# Decimal numerals

Unsigned numbers of bounded size in decimal notation. A numeral is a non-empty run of ASCII digits,
with one optional plus sign in front; leading zeros do not matter.
-/

namespace ConceptSpace.Text

/-- How many values a 64-bit word has. -/
def wordCount : Nat := UInt64.size

/-- The number that a run of digits writes; `none` if it is empty or holds anything else. -/
def digits? (cs : List Char) : Option Nat :=
  if !cs.isEmpty && cs.all Char.isDigit then some (Nat.ofDigitChars 10 cs 0) else none

/-- Drops one plus sign in front. -/
def dropPlus : List Char → List Char
  | '+' :: cs => cs
  | cs => cs

/-- The 64-bit number that a numeral writes. -/
def word? (cs : List Char) : Option Nat :=
  (digits? (dropPlus cs)).filter (· < wordCount)

/-- What is written in decimal reads back. -/
theorem digits?_toDigits (n : Nat) : digits? (Nat.toDigits 10 n) = some n := by
  have digits : (Nat.toDigits 10 n).all Char.isDigit = true :=
    List.all_eq_true.mpr fun c hc => Nat.isDigit_of_mem_toDigits (by decide) (by decide) hc
  have nonempty : (Nat.toDigits 10 n).isEmpty = false := by
    rw [Nat.toDigits_eq_if (by decide)]
    split <;> simp
  rw [digits?, digits, nonempty, Nat.ofDigitChars_toDigits (by decide) (by decide)]
  rfl

/-- A number written in decimal reads back, if it is a word. -/
theorem word?_toDigits_eq (n : Nat) :
    word? (Nat.toDigits 10 n) = if n < wordCount then some n else none := by
  have : dropPlus (Nat.toDigits 10 n) = Nat.toDigits 10 n := by
    unfold dropPlus
    split
    case h_1 cs e =>
      have : ('+' : Char).isDigit = true :=
        Nat.isDigit_of_mem_toDigits (b := 10) (n := n) (by decide) (by decide) (by simp [e])
      exact absurd this (by decide)
    case h_2 => rfl
  simp [word?, this, digits?_toDigits, Option.filter]

theorem word?_toDigits {n : Nat} (h : n < wordCount) : word? (Nat.toDigits 10 n) = some n := by
  rw [word?_toDigits_eq, if_pos h]

end ConceptSpace.Text
