import Mathlib.Data.List.TakeDrop
import ConceptSpace.Proofs.Sequence.Traversal
import ConceptSpace.Proofs.Text.Percent
import ConceptSpace.Source.Position
import ConceptSpace.Storage.Key

/-!
# Encoded keys read back

The encoded form of a key names the key: different keys have different encoded forms
(`encode_inj`), and the encoded form of a key that memory can hold is decoded to the key
(`decode_encode`). An encoded key holds no slash and no semicolon, which separate the fields of
storage keys.
-/

namespace ConceptSpace.Storage.Key

open Source (byteLength)

/-! ## Brackets and their places -/

/-- The brackets of a text that starts at an offset, each with its place. -/
def brackets (offset : Nat) : List Char → List (Nat × Char)
  | [] => []
  | c :: cs =>
    let more := brackets (offset + c.utf8Size) cs
    if c = '[' ∨ c = ']' then (offset, c) :: more else more

theorem byteLength_cons (c : Char) (cs : List Char) :
    byteLength (c :: cs) = c.utf8Size + byteLength cs :=
  rfl

theorem byteLength_append (cs ds : List Char) :
    byteLength (cs ++ ds) = byteLength cs + byteLength ds := by
  induction cs with
  | nil => exact (Nat.zero_add _).symm
  | cons c cs ih => rw [List.cons_append, byteLength_cons, byteLength_cons, ih, Nat.add_assoc]

/-- The bytes of a string are those of its characters. -/
theorem utf8ByteSize_eq_byteLength (s : String) : s.utf8ByteSize = byteLength s.toList := by
  obtain ⟨cs, rfl⟩ : ∃ cs, s = String.ofList cs := ⟨s.toList, by simp⟩
  rw [← String.size_toByteArray, String.toByteArray_ofList, String.toList_ofList]
  induction cs with
  | nil => rfl
  | cons c cs ih =>
    rw [List.utf8Encode_cons, ByteArray.size_append, ih, byteLength_cons, List.utf8Encode_singleton,
      List.size_toByteArray, String.length_utf8EncodeChar]

/-- An opening and a closing bracket are listed apart by `offsetsOf` and together by `brackets`. -/
theorem brackets_perm (offset : Nat) (cs : List Char) :
    ((offsetsOf '[' offset cs).map (·, '[') ++ (offsetsOf ']' offset cs).map (·, ']')).Perm
      (brackets offset cs) := by
  induction cs generalizing offset with
  | nil => simp [offsetsOf, brackets]
  | cons c cs ih =>
    by_cases ho : c = '['
    · subst ho
      simpa [offsetsOf, brackets] using ih _
    · by_cases hc : c = ']'
      · subst hc
        simpa [offsetsOf, brackets] using List.perm_middle.trans ((ih _).cons _)
      · simpa [offsetsOf, brackets, ho, hc] using ih _

theorem le_of_mem_brackets {offset : Nat} {cs : List Char} {place : Nat × Char}
    (h : place ∈ brackets offset cs) : offset ≤ place.1 := by
  induction cs generalizing offset with
  | nil => simp [brackets] at h
  | cons c cs ih =>
    rw [brackets] at h
    split at h
    · rcases List.mem_cons.mp h with rfl | h
      · exact Nat.le_refl _
      · have := ih h
        omega
    · have := ih h
      omega

theorem pairwise_brackets (offset : Nat) (cs : List Char) :
    (brackets offset cs).Pairwise fun a b => a.1 < b.1 := by
  induction cs generalizing offset with
  | nil => simp [brackets]
  | cons c cs ih =>
    rw [brackets]
    split
    · refine List.pairwise_cons.mpr ⟨fun place h => ?_, ih _⟩
      have := le_of_mem_brackets h
      have := c.utf8Size_pos
      simp only
      omega
    · exact ih _

theorem placeLe_total (a b : Nat × Char) : (placeLe a b || placeLe b a) = true := by
  rcases Nat.lt_trichotomy a.1 b.1 with h | h | h
  · simp [placeLe, h]
  · simpa [placeLe, h] using Char.le_total a.2 b.2
  · simp [placeLe, h]

theorem placeLe_trans (a b c : Nat × Char) (hab : placeLe a b = true) (hbc : placeLe b c = true) :
    placeLe a c = true := by
  simp only [placeLe, Bool.or_eq_true, Bool.and_eq_true, decide_eq_true_eq, beq_iff_eq] at *
  rcases hab with hab | ⟨hab, hab'⟩ <;> rcases hbc with hbc | ⟨hbc, hbc'⟩
  · exact .inl (by omega)
  · exact .inl (by omega)
  · exact .inl (by omega)
  · exact .inr ⟨by omega, Char.le_trans hab' hbc'⟩

theorem placeLe_antisymm {a b : Nat × Char} (hab : placeLe a b = true) (hba : placeLe b a = true) :
    a = b := by
  simp only [placeLe, Bool.or_eq_true, Bool.and_eq_true, decide_eq_true_eq, beq_iff_eq] at *
  rcases hab with hab | ⟨hab, hab'⟩ <;> rcases hba with hba | ⟨hba, hba'⟩
  · omega
  · omega
  · omega
  · exact Prod.ext hab (Char.le_antisymm hab' hba')

/-- The two lists of places, sorted, are the brackets of the text. -/
theorem sortBy_places (cs : List Char) :
    Sequence.sortBy placeLe
      ((offsetsOf '[' 0 cs).map (·, '[') ++ (offsetsOf ']' 0 cs).map (·, ']')) = brackets 0 cs := by
  have ordered : (brackets 0 cs).Pairwise (placeLe · ·) :=
    (pairwise_brackets 0 cs).imp fun h => by simp [placeLe, h]
  exact List.Perm.eq_of_pairwise (fun a b _ _ => placeLe_antisymm)
    (Sequence.pairwise_sortBy placeLe_total placeLe_trans _) ordered
    ((Sequence.sortBy_perm _ _).trans (brackets_perm 0 cs))

/-! ## Putting brackets back -/

/-- Inserting behind a text. -/
theorem insertAt?_append (before behind : List Char) (x : Char) :
    insertAt? (byteLength before) x (before ++ behind) = some (before ++ x :: behind) := by
  induction before with
  | nil => simp [byteLength, insertAt?]
  | cons c before ih =>
    obtain ⟨n, hn⟩ : ∃ n, byteLength (c :: before) = n + 1 :=
      ⟨byteLength (c :: before) - 1, by
        have := c.utf8Size_pos
        rw [byteLength_cons]
        omega⟩
    have inside : n + 1 - c.utf8Size = byteLength before := by
      rw [← hn, byteLength_cons]
      omega
    have fits : c.utf8Size ≤ n + 1 := by
      rw [← hn, byteLength_cons]
      omega
    rw [hn, List.cons_append, insertAt?, if_pos fits, inside, ih]
    rfl

/-- Inserting the brackets of a text from left to right gives the text. -/
theorem foldlM_insertAt? (before cs : List Char) :
    (brackets (byteLength before) cs).foldlM (fun acc (offset, bracket) =>
      insertAt? offset bracket acc) (before ++ unbracketed cs) = some (before ++ cs) := by
  induction cs generalizing before with
  | nil => rfl
  | cons c cs ih =>
    have next : byteLength before + c.utf8Size = byteLength (before ++ [c]) := by
      rw [byteLength_append]
      simp [byteLength]
    have ih := ih (before ++ [c])
    rw [← next, List.append_assoc, List.append_assoc] at ih
    by_cases h : c = '[' ∨ c = ']'
    · have hc : unbracketed (c :: cs) = unbracketed cs := by
        rcases h with rfl | rfl <;> simp [unbracketed]
      rw [brackets, if_pos h, List.foldlM_cons, hc]
      change (insertAt? (byteLength before) c (before ++ unbracketed cs)).bind _ = _
      rw [insertAt?_append]
      exact ih
    · have hc : unbracketed (c :: cs) = c :: unbracketed cs := by
        simp only [not_or] at h
        simp [unbracketed, h]
      rw [brackets, if_neg h, hc]
      exact ih

/-- A text is determined by what is left of it and by the places of its brackets. -/
theorem rebuild (cs : List Char) :
    (Sequence.sortBy placeLe
      ((offsetsOf '[' 0 cs).map (·, '[') ++ (offsetsOf ']' 0 cs).map (·, ']'))).foldlM
        (fun acc (offset, bracket) => insertAt? offset bracket acc) (unbracketed cs) = some cs := by
  rw [sortBy_places]
  exact foldlM_insertAt? [] cs

/-! ## Lists of offsets -/

theorem isDigit_of_mem_offsetList {offsets : List Nat} {c : Char} (h : c ∈ offsetList offsets) :
    c = ';' ∨ c.isDigit = true := by
  induction offsets with
  | nil => simp [offsetList] at h
  | cons n offsets ih =>
    have digits : ∀ c ∈ Nat.toDigits 10 n, c.isDigit = true := fun c hc =>
      Nat.isDigit_of_mem_toDigits (by decide) (by decide) hc
    cases offsets with
    | nil => exact .inr (digits c (by simpa [offsetList] using h))
    | cons m offsets =>
      simp only [offsetList, List.map_cons, List.intercalate_cons_cons, List.mem_append,
        List.mem_singleton, or_assoc] at h ih
      rcases h with h | h | h
      · exact .inr (digits c h)
      · exact .inl h
      · exact ih h

/-- The fields of a list of offsets. -/
theorem splitOn_offsetList (offsets : List Nat) :
    ((offsetList offsets).splitOn ';').filter (!·.isEmpty) = offsets.map (Nat.toDigits 10) := by
  by_cases h : offsets = []
  · subst h
    simp [offsetList]
  · have fields : ∀ l ∈ offsets.map (Nat.toDigits 10), ';' ∉ l := by
      intro l hl hm
      obtain ⟨n, -, rfl⟩ := List.mem_map.mp hl
      exact absurd (Nat.isDigit_of_mem_toDigits (by decide) (by decide) hm) (by decide)
    rw [offsetList, List.splitOn_intercalate _ fields (by simpa using h), List.filter_eq_self]
    intro l hl
    obtain ⟨n, -, rfl⟩ := List.mem_map.mp hl
    simp

theorem offsetList_inj {as bs : List Nat} (h : offsetList as = offsetList bs) : as = bs := by
  have e := splitOn_offsetList as
  rw [h, splitOn_offsetList] at e
  refine (List.map_inj_right fun m n h => ?_).mp e.symm
  have hm := Text.digits?_toDigits m
  rw [h, Text.digits?_toDigits] at hm
  exact (Option.some.inj hm).symm

theorem offsets?_offsetList {offsets : List Nat} (h : ∀ n ∈ offsets, n < Text.wordCount) :
    offsets? (offsetList offsets) = some offsets := by
  rw [offsets?, splitOn_offsetList, List.mapM_map]
  exact (Sequence.mapM_eq_some fun n hn => Text.word?_toDigits (h n hn)).trans (by simp)

/-- What is read of a list of offsets are these offsets. -/
theorem eq_of_offsets? {offsets found : List Nat} (h : offsets? (offsetList offsets) = some found) :
    found = offsets := by
  rw [offsets?, splitOn_offsetList, List.mapM_map] at h
  induction offsets generalizing found with
  | nil => exact (Option.some.inj h).symm
  | cons n offsets ih =>
    rw [List.mapM_cons, Function.comp_apply, Text.word?_toDigits_eq] at h
    split at h
    case isFalse => cases h
    case isTrue =>
      obtain ⟨m, word, h⟩ := Option.bind_eq_some_iff.mp h
      obtain ⟨more, read, h⟩ := Option.bind_eq_some_iff.mp h
      rw [← Option.some.inj h, ← Option.some.inj word, ih read]

/-- An offset is within the text. -/
theorem lt_of_mem_offsetsOf {x : Char} {offset n : Nat} {cs : List Char}
    (h : n ∈ offsetsOf x offset cs) : n < offset + byteLength cs := by
  induction cs generalizing offset with
  | nil => simp [offsetsOf] at h
  | cons c cs ih =>
    have := c.utf8Size_pos
    rw [byteLength_cons]
    rw [offsetsOf] at h
    split at h
    · rcases List.mem_cons.mp h with rfl | h
      · omega
      · have := ih h
        omega
    · have := ih h
      omega

/-! ## The encoded form -/

theorem splitLast?_append {x : Char} {before behind : List Char} (h : x ∉ behind) :
    splitLast? x (before ++ x :: behind) = some (before, behind) := by
  have run : ∀ c ∈ behind.reverse, decide (c ≠ x) = true := by
    intro c hc
    have : c ≠ x := by
      rintro rfl
      exact h (List.mem_reverse.mp hc)
    simp [this]
  have e : (before ++ x :: behind).reverse = behind.reverse ++ x :: before.reverse := by simp
  rw [splitLast?, e, List.span_eq_takeWhile_dropWhile, List.takeWhile_append_of_pos run,
    List.dropWhile_append_of_pos run]
  simp

/-- The three parts of text with its brackets moved behind it. -/
theorem splitLast?_bracketsLast (cs : List Char) :
    splitLast? '|' (bracketsLast cs) =
        some (unbracketed cs ++ '|' :: offsetList (offsetsOf '[' 0 cs),
          offsetList (offsetsOf ']' 0 cs)) ∧
      splitLast? '|' (unbracketed cs ++ '|' :: offsetList (offsetsOf '[' 0 cs)) =
        some (unbracketed cs, offsetList (offsetsOf '[' 0 cs)) := by
  have bar : ∀ offsets, '|' ∉ offsetList offsets := by
    intro offsets h
    rcases isDigit_of_mem_offsetList h with h | h
    · exact absurd h (by decide)
    · exact absurd h (by decide)
  refine ⟨?_, splitLast?_append (bar _)⟩
  rw [bracketsLast, ← List.cons_append, ← List.append_assoc]
  exact splitLast?_append (bar _)

theorem bracketsLast_inj {cs ds : List Char} (h : bracketsLast cs = bracketsLast ds) : cs = ds := by
  obtain ⟨outer, inner⟩ := splitLast?_bracketsLast cs
  obtain ⟨outer', inner'⟩ := splitLast?_bracketsLast ds
  rw [h, outer'] at outer
  obtain ⟨front, closings⟩ := Prod.mk.inj (Option.some.inj outer)
  rw [← front, inner'] at inner
  obtain ⟨text, openings⟩ := Prod.mk.inj (Option.some.inj inner)
  have e := rebuild cs
  rw [← text, ← offsetList_inj openings, ← offsetList_inj closings, rebuild] at e
  exact (Option.some.inj e).symm

theorem encode_inj {j k : String} : encode j = encode k ↔ j = k := by
  constructor
  · intro h
    have h := String.ofList_injective h
    exact String.toList_inj.mp (bracketsLast_inj (Text.Percent.escape_inj.mp h))
  · rintro rfl
    rfl

/-- The size of a text that memory can hold. -/
def FitsMemory (key : String) : Prop :=
  key.utf8ByteSize < Text.wordCount

instance : DecidablePred FitsMemory := fun key =>
  inferInstanceAs (Decidable (key.utf8ByteSize < Text.wordCount))

theorem bracketsBack?_bracketsLast {cs : List Char} (h : byteLength cs < Text.wordCount) :
    bracketsBack? (bracketsLast cs) = some cs := by
  obtain ⟨outer, inner⟩ := splitLast?_bracketsLast cs
  have fits : ∀ x, ∀ n ∈ offsetsOf x 0 cs, n < Text.wordCount := fun x n hn => by
    have := lt_of_mem_offsetsOf hn
    omega
  simp only [bracketsBack?, outer, inner, bind, Option.bind, offsets?_offsetList (fits _)]
  exact rebuild cs

theorem decode_encode {key : String} (h : FitsMemory key) : decode (encode key) = .ok key := by
  have h : byteLength key.toList < Text.wordCount := by
    rwa [← utf8ByteSize_eq_byteLength]
  simp [decode, encode, Text.Percent.unescape?_escape, bracketsBack?_bracketsLast h]

theorem eq_of_bracketsBack? {cs found : List Char}
    (h : bracketsBack? (bracketsLast cs) = some found) : found = cs := by
  obtain ⟨outer, inner⟩ := splitLast?_bracketsLast cs
  simp only [bracketsBack?, outer, inner, Option.bind_eq_bind, Option.bind_some] at h
  obtain ⟨opened, openings, h⟩ := Option.bind_eq_some_iff.mp h
  obtain ⟨closed, closings, h⟩ := Option.bind_eq_some_iff.mp h
  rw [eq_of_offsets? openings, eq_of_offsets? closings] at h
  exact Option.some.inj (h.symm.trans (rebuild cs))

/-- What is read of an encoded key is the key, however long it is. -/
theorem eq_of_decode_encode {key found : String} (h : decode (encode key) = .ok found) :
    found = key := by
  rw [decode, encode, String.toList_ofList, Text.Percent.unescape?_escape] at h
  split at h
  case h_2 => cases h
  case h_1 cs back =>
    obtain rfl : cs = key.toList := eq_of_bracketsBack? back
    rw [← Except.ok.inj h, String.ofList_toList]

theorem slash_not_mem_encode (key : String) : '/' ∉ (encode key).toList := by
  rw [encode, String.toList_ofList]
  exact Text.Percent.not_mem_escape (by decide) (by decide) _

theorem semicolon_not_mem_encode (key : String) : ';' ∉ (encode key).toList := by
  rw [encode, String.toList_ofList]
  exact Text.Percent.not_mem_escape (by decide) (by decide) _

theorem toList_encode_ne_nil (key : String) : (encode key).toList ≠ [] := by
  rw [encode, String.toList_ofList]
  intro h
  have e : bracketsLast key.toList = [] := Text.Percent.escape_inj.mp h
  simp [bracketsLast] at e

/-! ## Main statement -/

/-- A key that memory can hold reads back from its encoded form, whatever brackets and whatever
lists of offsets stand in it. The encoded form is made of unreserved ASCII characters and percent
signs, so that it holds none of the characters that separate the fields of storage keys. -/
theorem encode_reads_back (key : String) :
    (FitsMemory key → decode (encode key) = .ok key) ∧ ∀ c ∈ (encode key).toList,
      c.toNat < 128 ∧ (c = '%' ∨ Text.Percent.isUnreserved c = true) ∧
        c ∉ [':', '/', ';', '|', '[', ']', ' '] := by
  refine ⟨decode_encode, fun c hc => ?_⟩
  rw [encode, String.toList_ofList] at hc
  have allowed := Text.Percent.eq_or_isUnreserved_of_mem_escape hc
  refine ⟨Text.Percent.toNat_lt_of_mem_escape hc, allowed, fun separator => ?_⟩
  simp only [List.mem_cons, List.not_mem_nil, or_false] at separator
  rcases separator with rfl | rfl | rfl | rfl | rfl | rfl | rfl <;> exact absurd allowed (by decide)

/-- A key with brackets that are not balanced, and with text that looks like offsets of brackets and
like escapes. -/
private def awkwardKey : String := "]é[☃|[0;2|%5B;+1]|"

theorem awkwardKey_reads_back : FitsMemory awkwardKey ∧
    encode awkwardKey = "%C3%A9%E2%98%83%7C0%3B2%7C%255B%3B%2B1%7C%7C3%3B8%7C0%3B19" ∧
      decode (encode awkwardKey) = .ok awkwardKey := by
  have fits : FitsMemory awkwardKey := by decide +kernel
  exact ⟨fits, by decide +kernel, (encode_reads_back awkwardKey).1 fits⟩

end ConceptSpace.Storage.Key
