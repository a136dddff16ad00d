import Mathlib.Algebra.Group.Nat.Defs

/-!
# The order of bytes

Keys are ordered by code point, which is the order of their UTF-8 bytes (`bytesOf_lt_iff`): the
encoded forms of two characters differ in some byte, the smaller of which is that of the smaller
character (`precedes_utf8EncodeChar`). A text starts with another if its bytes do
(`bytesOf_isPrefix_iff`).
-/

namespace ConceptSpace.Text

/-- The UTF-8 bytes of a text. -/
def bytesOf (s : String) : List UInt8 :=
  s.toUTF8.data.toList

theorem bytesOf_eq_flatMap (s : String) : bytesOf s = s.toList.flatMap String.utf8EncodeChar := by
  rw [bytesOf, String.toUTF8_eq_toByteArray, ← String.utf8Encode_toList, List.utf8Encode,
    List.data_toByteArray]

/-! ## Bytes that differ -/

/-- Where two runs of bytes first differ, the byte of the first one is smaller. -/
inductive Precedes : List UInt8 → List UInt8 → Prop where
  /-- They differ in the first byte. -/
  | here {a b : UInt8} (h : a < b) (as bs : List UInt8) : Precedes (a :: as) (b :: bs)
  /-- They differ behind the first byte. -/
  | later (a : UInt8) {as bs : List UInt8} (h : Precedes as bs) : Precedes (a :: as) (a :: bs)

/-- What follows the byte in which two runs differ does not matter. -/
theorem Precedes.append {as bs : List UInt8} (h : Precedes as bs) (as' bs' : List UInt8) :
    as ++ as' < bs ++ bs' := by
  induction h with
  | here h as bs => exact List.cons_lt_cons_iff.mpr (.inl h)
  | later a _ ih => exact List.cons_lt_cons_iff.mpr (.inr ⟨rfl, ih⟩)

/-- The bytes of numbers, compared one after the other. -/
theorem precedes_ofNat {m n : Nat} {as bs : List UInt8} (bound : n < 256)
    (h : m < n ∨ m = n ∧ Precedes as bs) :
    Precedes (UInt8.ofNat m :: as) (UInt8.ofNat n :: bs) := by
  rcases h with less | ⟨rfl, h⟩
  · refine .here ?_ as bs
    rw [UInt8.lt_iff_toNat_lt, UInt8.toNat_ofNat', UInt8.toNat_ofNat']
    omega
  · exact .later _ h

/-- The bytes behind the first one of an encoded character are the last digits of its number to the
base of 64. -/
def continuation (m : Nat) : Nat → List UInt8
  | 0 => []
  | k + 1 => UInt8.ofNat (m / 64 ^ k % 64 + 128) :: continuation m k

/-- Numbers with the same digits in front differ in one of the last digits. -/
theorem precedes_continuation {m n k : Nat} (less : m < n) (same : m / 64 ^ k = n / 64 ^ k) :
    Precedes (continuation m k) (continuation n k) := by
  induction k with
  | zero =>
    rw [Nat.pow_zero, Nat.div_one, Nat.div_one] at same
    omega
  | succ k ih =>
    have monotone : m / 64 ^ k ≤ n / 64 ^ k := Nat.div_le_div_right (Nat.le_of_lt less)
    rw [Nat.pow_succ, ← Nat.div_div_eq_div_mul, ← Nat.div_div_eq_div_mul] at same
    by_cases first : m / 64 ^ k = n / 64 ^ k
    · exact precedes_ofNat (by omega) (.inr ⟨by rw [first], ih first⟩)
    · exact precedes_ofNat (by omega) (.inl (by omega))

/-- Characters that are encoded with the same number of bytes are compared digit by digit. -/
theorem precedes_cons_continuation {m n k size lead : Nat} (less : m < n)
    (fits : n / 64 ^ k < size) (bound : size + lead ≤ 256) :
    Precedes (UInt8.ofNat (m / 64 ^ k % size + lead) :: continuation m k)
      (UInt8.ofNat (n / 64 ^ k % size + lead) :: continuation n k) := by
  have monotone : m / 64 ^ k ≤ n / 64 ^ k := Nat.div_le_div_right (Nat.le_of_lt less)
  rw [Nat.mod_eq_of_lt (Nat.lt_of_le_of_lt monotone fits), Nat.mod_eq_of_lt fits]
  by_cases first : m / 64 ^ k = n / 64 ^ k
  · exact precedes_ofNat (by omega) (.inr ⟨by rw [first], precedes_continuation less first⟩)
  · exact precedes_ofNat (by omega) (.inl (by omega))

/-- The bytes of the smaller one of two characters come first. -/
theorem precedes_utf8EncodeChar {c d : Char} (h : c < d) :
    Precedes (String.utf8EncodeChar c) (String.utf8EncodeChar d) := by
  have less : c.val.toNat < d.val.toNat := UInt32.lt_iff_toNat_lt.mp h
  have limit : d.val.toNat < 0x110000 := by
    have := d.valid
    unfold UInt32.isValidChar Nat.isValidChar at this
    omega
  unfold String.utf8EncodeChar
  simp only
  generalize c.val.toNat = m at less
  generalize d.val.toNat = n at less limit
  -- A longer form has a greater first byte.
  split
  case isTrue =>
    split
    · exact precedes_ofNat (by omega) (.inl less)
    split
    · exact precedes_ofNat (by omega) (.inl (by omega))
    split <;> exact precedes_ofNat (by omega) (.inl (by omega))
  rw [if_neg (show ¬ n ≤ 127 by omega)]
  split
  case isTrue =>
    split
    · simpa [continuation] using precedes_cons_continuation (k := 1) less
        (show n / 64 ^ 1 < 32 by omega) (show 32 + 192 ≤ 256 by omega)
    split <;> exact precedes_ofNat (by omega) (.inl (by omega))
  rw [if_neg (show ¬ n ≤ 2047 by omega)]
  split
  case isTrue =>
    split
    · simpa [continuation] using precedes_cons_continuation (k := 2) less
        (show n / 64 ^ 2 < 16 by omega) (show 16 + 224 ≤ 256 by omega)
    · exact precedes_ofNat (by omega) (.inl (by omega))
  rw [if_neg (show ¬ n ≤ 65535 by omega)]
  simpa [continuation] using precedes_cons_continuation (k := 3) less
    (show n / 64 ^ 3 < 8 by omega) (show 8 + 240 ≤ 256 by omega)

/-! ## Texts -/

theorem flatMap_utf8EncodeChar_lt {cs ds : List Char} (h : cs < ds) :
    cs.flatMap String.utf8EncodeChar < ds.flatMap String.utf8EncodeChar := by
  induction cs generalizing ds with
  | nil =>
    cases ds with
    | nil => exact absurd h (List.lt_irrefl [])
    | cons d ds =>
      obtain ⟨b, bs, e⟩ := List.exists_cons_of_ne_nil
        (List.append_ne_nil_of_left_ne_nil (String.utf8EncodeChar_ne_nil (c := d))
          (ds.flatMap String.utf8EncodeChar))
      rw [List.flatMap_cons, e]
      exact List.nil_lt_cons b bs
  | cons c cs ih =>
    cases ds with
    | nil => exact absurd h (List.not_lt_nil _)
    | cons d ds =>
      rw [List.flatMap_cons, List.flatMap_cons]
      rcases List.cons_lt_cons_iff.mp h with less | ⟨rfl, rest⟩
      · exact (precedes_utf8EncodeChar less).append _ _
      · exact List.append_left_lt (ih rest)

/-- The order of texts is that of their bytes. -/
theorem bytesOf_lt_iff {s t : String} : bytesOf s < bytesOf t ↔ s < t := by
  have mono : ∀ {s t : String}, s < t → bytesOf s < bytesOf t := by
    intro s t h
    rw [bytesOf_eq_flatMap, bytesOf_eq_flatMap]
    exact flatMap_utf8EncodeChar_lt h
  refine ⟨fun h => ?_, mono⟩
  rcases Std.lt_trichotomy s t with less | rfl | greater
  · exact less
  · exact absurd h (List.lt_irrefl _)
  · exact absurd (mono greater) (List.lt_asymm h)

theorem bytesOf_le_iff {s t : String} : bytesOf s ≤ bytesOf t ↔ s ≤ t := by
  rw [← List.not_lt, bytesOf_lt_iff, String.not_lt]

/-- A text starts with another if its bytes start with those of the other. -/
theorem bytesOf_isPrefix_iff {s t : String} :
    bytesOf s <+: bytesOf t ↔ s.toList <+: t.toList := by
  constructor
  · rintro ⟨more, e⟩
    refine List.isPrefix_of_utf8Encode_append_eq_utf8Encode more.toByteArray ?_
    rw [ByteArray.ext_iff, ByteArray.data_append, List.data_toByteArray, ← Array.toList_inj,
      Array.toList_append, String.utf8Encode_toList, String.utf8Encode_toList]
    exact e
  · rintro ⟨more, e⟩
    rw [bytesOf_eq_flatMap, bytesOf_eq_flatMap, ← e, List.flatMap_append]
    exact List.prefix_append _ _

end ConceptSpace.Text
