import ConceptSpace.Text.Percent

/-!
# Percent escapes read back

Escaped text stands for the text that was escaped (`unescape?_escape`), so that escaping loses
nothing, and it consists of unreserved characters and percent signs (`not_mem_escape`), which are
ASCII characters (`toNat_lt_of_mem_escape`).
-/

namespace ConceptSpace.Text.Percent

/-! ## Digits -/

theorem hexValue?_hexDigit : ∀ n < 16, hexValue? (hexDigit n) = some n := by
  decide

theorem isUnreserved_hexDigit : ∀ n < 16, isUnreserved (hexDigit n) = true := by
  decide

theorem hexByte?_hexDigit (b : UInt8) :
    hexByte? (hexDigit (b.toNat / 16)) (hexDigit (b.toNat % 16)) = some b := by
  have bound : b.toNat < 256 := b.toNat_lt
  have hh : b.toNat / 16 < 16 := by omega
  have hl : b.toNat % 16 < 16 := by omega
  have plus : hexDigit (b.toNat / 16) ≠ '+' := by
    intro e
    have := isUnreserved_hexDigit _ hh
    rw [e] at this
    exact absurd this (by decide)
  have whole : 16 * (b.toNat / 16) + b.toNat % 16 = b.toNat := by omega
  rw [hexByte?, if_neg plus, hexValue?_hexDigit _ hh, hexValue?_hexDigit _ hl]
  change some (UInt8.ofNat (16 * (b.toNat / 16) + b.toNat % 16)) = some b
  rw [whole, UInt8.ofNat_toNat]

/-! ## Reading escaped text -/

theorem bytes?_escapeByte (b : UInt8) (cs : List Char) :
    bytes? (escapeByte b ++ cs) = (bytes? cs).map (b :: ·) := by
  simp only [escapeByte, List.cons_append, List.nil_append, bytes?, hexByte?_hexDigit]
  cases bytes? cs <;> rfl

theorem bytes?_escapeBytes (bs : List UInt8) (cs : List Char) :
    bytes? (bs.flatMap escapeByte ++ cs) = (bytes? cs).map (bs ++ ·) := by
  induction bs with
  | nil => simp
  | cons b bs ih =>
    rw [List.flatMap_cons, List.append_assoc, bytes?_escapeByte, ih, Option.map_map]
    rfl

/-- A character that is no percent sign stands for itself. -/
theorem bytes?_cons {c : Char} (h : c ≠ '%') (cs : List Char) :
    bytes? (c :: cs) = (bytes? cs).map (String.utf8EncodeChar c ++ ·) := by
  rw [bytes?, if_neg h]
  rintro high low more e -
  exact h e

theorem ne_percent_of_isUnreserved {c : Char} (h : isUnreserved c = true) : c ≠ '%' := by
  rintro rfl
  exact absurd h (by decide)

theorem bytes?_escapeChar (c : Char) (cs : List Char) :
    bytes? (escapeChar c ++ cs) = (bytes? cs).map (String.utf8EncodeChar c ++ ·) := by
  unfold escapeChar
  split
  case isTrue h => exact bytes?_cons (ne_percent_of_isUnreserved h) cs
  case isFalse => exact bytes?_escapeBytes _ cs

/-- Escaped text stands for the bytes of the text. -/
theorem bytes?_escape (cs : List Char) :
    bytes? (escape cs) = some (cs.flatMap String.utf8EncodeChar) := by
  unfold escape
  induction cs with
  | nil => rfl
  | cons c cs ih =>
    rw [List.flatMap_cons, bytes?_escapeChar, ih, List.flatMap_cons, Option.map_some]

/-- The bytes of a text stand for the text. -/
theorem fromUTF8?_utf8Encode (cs : List Char) :
    String.fromUTF8? cs.utf8Encode = some (String.ofList cs) := by
  have valid : cs.utf8Encode.IsValidUTF8 := ByteArray.isValidUTF8_utf8Encode
  rw [String.fromUTF8?, dif_pos valid]
  rfl

theorem unescape?_escape (cs : List Char) : unescape? (escape cs) = some cs := by
  have bytes : (⟨(cs.flatMap String.utf8EncodeChar).toArray⟩ : ByteArray) = cs.utf8Encode := by
    rw [List.utf8Encode, ByteArray.ext_iff, List.data_toByteArray]
  simp [unescape?, bytes?_escape, bytes, fromUTF8?_utf8Encode]

theorem escape_inj {cs ds : List Char} : escape cs = escape ds ↔ cs = ds := by
  constructor
  · intro e
    have := unescape?_escape cs
    rw [e, unescape?_escape] at this
    exact (Option.some.inj this).symm
  · rintro rfl
    rfl

/-! ## The characters of escaped text -/

/-- Escaped text holds no reserved character but the percent sign. -/
theorem not_mem_escape {c : Char} (h : isUnreserved c = false) (hp : c ≠ '%') (cs : List Char) :
    c ∉ escape cs := by
  simp only [escape, List.mem_flatMap, not_exists, not_and]
  intro d _ hc
  unfold escapeChar at hc
  split at hc
  case isTrue hd =>
    obtain rfl : c = d := by simpa using hc
    rw [hd] at h
    exact absurd h (by simp)
  case isFalse =>
    obtain ⟨b, -, hb⟩ := List.mem_flatMap.mp hc
    have bound : b.toNat < 256 := b.toNat_lt
    simp only [escapeByte, List.mem_cons, List.not_mem_nil, or_false] at hb
    rcases hb with rfl | rfl | rfl
    · exact hp rfl
    · rw [isUnreserved_hexDigit _ (by omega)] at h
      exact absurd h (by simp)
    · rw [isUnreserved_hexDigit _ (by omega)] at h
      exact absurd h (by simp)

theorem eq_or_isUnreserved_of_mem_escape {c : Char} {cs : List Char} (h : c ∈ escape cs) :
    c = '%' ∨ isUnreserved c = true := by
  by_cases hp : c = '%'
  · exact .inl hp
  · cases unreserved : isUnreserved c with
    | true => exact .inr rfl
    | false => exact absurd h (not_mem_escape unreserved hp cs)

theorem toNat_lt_of_isUnreserved {c : Char} (h : isUnreserved c = true) : c.toNat < 128 := by
  unfold isUnreserved at h
  rcases Bool.or_eq_true_iff.mp h with alphanumeric | mark
  · delta Char.isAlphanum Char.isAlpha Char.isUpper Char.isLower Char.isDigit at alphanumeric
    simp only [Bool.or_eq_true, Bool.and_eq_true, decide_eq_true_eq, ge_iff_le,
      UInt32.le_iff_toNat_le, Char.reduceVal, UInt32.reduceToNat, Char.toNat_val] at alphanumeric
    omega
  · simp only [List.contains_iff_mem, List.mem_cons, List.not_mem_nil, or_false] at mark
    rcases mark with rfl | rfl | rfl | rfl | rfl | rfl | rfl | rfl | rfl <;> decide

theorem toNat_lt_of_mem_escape {c : Char} {cs : List Char} (h : c ∈ escape cs) : c.toNat < 128 := by
  rcases eq_or_isUnreserved_of_mem_escape h with rfl | unreserved
  · decide
  · exact toNat_lt_of_isUnreserved unreserved

end ConceptSpace.Text.Percent
