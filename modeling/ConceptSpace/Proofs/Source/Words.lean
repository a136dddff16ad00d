import ConceptSpace.Source.Denotation

/-!
# Words as tokens

Which words are one token wherever they stand: plain words, which no rule before the one for atoms
can take, and literals that end at their first closing mark. Such a word is cut off by anything
that is not a word character, so that a text made of such words, blanks, commas and brackets is cut
into just these pieces. The main statements: `first?_of_isToken` for one token, and `scan_word`,
`scan_separator` and `scan_bracket` for the start of a text.
-/

namespace ConceptSpace.Source

/-- The mark in front of a comment. -/
def commentOpening : List Char := ['/', '*']

/-- Whether a word is an atom that starts neither like a literal nor like a comment. -/
def isPlainWord (word : String) : Bool :=
  isWord word && !Concept.literalOpening.isPrefixOf word.toList &&
    !commentOpening.isPrefixOf word.toList

/-- Whether the rule for literals takes a word as a whole. -/
def isWholeLiteral (word : String) : Bool :=
  match word.toList with
  | [] => false
  | c :: cs => c == '<' && Token.literal? cs == some (.literal, cs.length)

/-- Whether a word is one token, whatever stands behind it. -/
def isToken (word : String) : Bool :=
  isPlainWord word || isWholeLiteral word

namespace Token

/-- Text that does not go on with a word. -/
def IsDelimited (rest : List Char) : Prop :=
  ∀ c ∈ rest.head?, isWordChar c = false

theorem isDelimited_nil : IsDelimited [] := by simp [IsDelimited]

theorem isDelimited_cons {c : Char} {cs : List Char} (h : isWordChar c = false) :
    IsDelimited (c :: cs) := by
  simpa [IsDelimited] using h

/-! ## Character classes -/

theorem isSeparator_of_isWordChar {c : Char} (h : isWordChar c = true) : isSeparator c = false := by
  cases hs : isSeparator c with
  | false => rfl
  | true =>
    have hc : c = '\n' ∨ c = ',' ∨ c = ' ' ∨ c = '\t' ∨ c = '\r' := by
      simpa [isSeparator, isBreak, or_assoc] using hs
    rcases hc with rfl | rfl | rfl | rfl | rfl <;> exact absurd h (by decide)

theorem bracket?_of_isWordChar {c : Char} (h : isWordChar c = true) : bracket? c = none := by
  have hc : isReserved c = false := by
    simp only [isWordChar, Bool.and_eq_true, Bool.not_eq_true'] at h
    exact h.1
  unfold bracket?
  split <;> first | rfl | exact absurd hc (by decide)

/-! ## Words -/

/-- The end of a closing mark does not depend on what follows it. -/
theorem through_append {a b : Char} {cs : List Char} {n : Nat} (h : through a b cs = some n)
    (rest : List Char) : through a b (cs ++ rest) = some n := by
  induction cs generalizing n with
  | nil => simp [through] at h
  | cons c cs ih =>
    cases cs with
    | nil => simp [through] at h
    | cons d cs =>
      rw [through] at h
      simp only [List.cons_append] at ih ⊢
      rw [through]
      by_cases hcd : c = a ∧ d = b
      · simpa [hcd] using h
      · rw [if_neg hcd] at h ⊢
        obtain ⟨m, hm, rfl⟩ := Option.map_eq_some_iff.mp h
        rw [ih hm]
        rfl

/-- The end of a literal does not depend on what follows it. -/
theorem literal?_append {cs : List Char} {kind : TokenKind} {n : Nat}
    (h : literal? cs = some (kind, n)) (rest : List Char) :
    literal? (cs ++ rest) = some (kind, n) := by
  unfold literal? at h
  split at h
  case h_2 => simp at h
  case h_1 cs =>
    cases cs with
    | nil => simp [body] at h
    | cons c cs =>
      simp only [body, Option.map_map] at h
      obtain ⟨m, hm, he⟩ := Option.map_eq_some_iff.mp h
      simp only [List.cons_append, literal?, body, through_append hm rest]
      exact congrArg some he

/-- A character that starts with neither mark starts no comment and no literal. -/
theorem enclosed?_eq_none {c : Char} {cs : List Char}
    (literal : Concept.literalOpening.isPrefixOf (c :: cs) = false)
    (comment : commentOpening.isPrefixOf (c :: cs) = false) : enclosed? c cs = none := by
  unfold enclosed?
  split
  case isTrue hc =>
    subst hc
    unfold comment?
    split
    · simp [commentOpening] at comment
    · rfl
  case isFalse =>
    split
    case isTrue hc =>
      subst hc
      unfold literal?
      split
      · simp [Concept.literalOpening] at literal
      · rfl
    case isFalse => rfl

/-- Neither mark comes about by what follows a word. -/
theorem isPrefixOf_append_of_isDelimited {a b c : Char} {cs rest : List Char}
    (hb : isWordChar b = true) (h : [a, b].isPrefixOf (c :: cs) = false)
    (delimited : IsDelimited rest) : [a, b].isPrefixOf (c :: (cs ++ rest)) = false := by
  cases cs with
  | cons d cs => simpa [List.isPrefixOf] using h
  | nil =>
    cases rest with
    | nil => simp [List.isPrefixOf]
    | cons d rest =>
      have hd : isWordChar d = false := delimited d (by simp)
      have : b ≠ d := by
        rintro rfl
        simp [hb] at hd
      simp [List.isPrefixOf, this]

theorem all_isWordChar_of_isPlainWord {word : String} (h : isPlainWord word = true) :
    word.toList ≠ [] ∧ ∀ c ∈ word.toList, isWordChar c = true := by
  simp only [isPlainWord, isWord, Bool.and_eq_true, Bool.or_eq_true, Bool.not_eq_true'] at h
  obtain ⟨⟨literal | plain, noLiteral⟩, -⟩ := h
  · have : Concept.literalOpening.isPrefixOf word.toList = true := by
      simp only [Concept.isLiteralWord, Bool.and_eq_true] at literal
      exact literal.1.2
    simp [this] at noLiteral
  · exact ⟨by simpa using plain.1, List.all_eq_true.mp plain.2⟩

/-- A plain word is an atom up to where it is cut off. -/
theorem first?_of_isPlainWord {word : String} (h : isPlainWord word = true) {rest : List Char}
    (delimited : IsDelimited rest) :
    ∃ c cs, word.toList = c :: cs ∧ isSeparator c = false ∧
      first? c (cs ++ rest) = some (.atom, cs.length) := by
  obtain ⟨nonempty, chars⟩ := all_isWordChar_of_isPlainWord h
  cases e : word.toList with
  | nil => exact absurd e nonempty
  | cons c cs =>
    rw [e] at chars
    have hc : isWordChar c = true := chars c (by simp)
    have hs := isSeparator_of_isWordChar hc
    simp only [isPlainWord, Bool.and_eq_true, Bool.not_eq_true', e] at h
    obtain ⟨⟨-, literal⟩, comment⟩ := h
    have enclosed : enclosed? c (cs ++ rest) = none :=
      enclosed?_eq_none (isPrefixOf_append_of_isDelimited (by decide) literal delimited)
        (isPrefixOf_append_of_isDelimited (by decide) comment delimited)
    have stops : rest.takeWhile isWordChar = [] := by
      cases rest with
      | nil => rfl
      | cons d rest => simp [delimited d (by simp)]
    have run : (cs ++ rest).takeWhile isWordChar = cs := by
      rw [List.takeWhile_append_of_pos fun d hd => chars d (by simp [hd]), stops, List.append_nil]
    refine ⟨c, cs, rfl, hs, ?_⟩
    simp [first?, hs, enclosed, bracket?_of_isWordChar hc, hc, run]

/-- A literal that ends at its first closing mark is one token. -/
theorem first?_of_isWholeLiteral {word : String} (h : isWholeLiteral word = true)
    (rest : List Char) :
    ∃ c cs, word.toList = c :: cs ∧ isSeparator c = false ∧
      first? c (cs ++ rest) = some (.literal, cs.length) := by
  cases e : word.toList with
  | nil => simp [isWholeLiteral, e] at h
  | cons c cs =>
    simp only [isWholeLiteral, e, Bool.and_eq_true, beq_iff_eq] at h
    obtain ⟨rfl, literal⟩ := h
    have hs : isSeparator '<' = false := by decide
    refine ⟨'<', cs, rfl, hs, ?_⟩
    simp [first?, hs, enclosed?, literal?_append literal rest]

theorem first?_of_isToken {word : String} (h : isToken word = true) {rest : List Char}
    (delimited : IsDelimited rest) :
    ∃ kind c cs, (kind = .atom ∨ kind = .literal) ∧ word.toList = c :: cs ∧
      isSeparator c = false ∧ first? c (cs ++ rest) = some (kind, cs.length) := by
  rcases Bool.or_eq_true _ _ ▸ h with plain | literal
  · exact ⟨.atom, (first?_of_isPlainWord plain delimited).imp fun _ => .imp fun _ h =>
      ⟨.inl rfl, h⟩⟩
  · exact ⟨.literal, (first?_of_isWholeLiteral literal rest).imp fun _ => .imp fun _ h =>
      ⟨.inr rfl, h⟩⟩

/-! ## The start of a text -/

theorem scan_cons {n : Nat} {c : Char} {cs : List Char} {kind : TokenKind}
    (h : first? c cs = some (kind, n)) (offset : Nat) :
    ∃ token stop, token.kind = kind ∧ token.text = String.ofList (c :: cs.take n) ∧
      scan offset (c :: cs) = (scan stop (cs.drop n)).map (token :: ·) := by
  let token : Token := ⟨kind, String.ofList (c :: cs.take n), offset⟩
  refine ⟨token, token.stop, rfl, rfl, ?_⟩
  rw [scan]
  simp [h, token]

theorem scan_word {word : String} (h : isToken word = true) {rest : List Char}
    (delimited : IsDelimited rest) (offset : Nat) :
    ∃ token stop, (token.kind = .atom ∨ token.kind = .literal) ∧ token.text = word ∧
      scan offset (word.toList ++ rest) = (scan stop rest).map (token :: ·) := by
  obtain ⟨kind, c, cs, hkind, e, -, first⟩ := first?_of_isToken h delimited
  obtain ⟨token, stop, rfl, text, scanned⟩ := scan_cons first offset
  refine ⟨token, stop, hkind, ?_, ?_⟩
  · rw [text, List.take_left, ← e, String.ofList_toList]
  · rw [e, List.cons_append, scanned, List.drop_left]

/-- One separator in front of something else is a token of its own. -/
theorem scan_separator {c d : Char} (rest : List Char) (hc : isSeparator c = true)
    (hd : isSeparator d = false) (offset : Nat) :
    ∃ token stop, token.kind = (if isBreak c then .branch else .spaces) ∧
      scan offset (c :: d :: rest) = (scan stop (d :: rest)).map (token :: ·) := by
  have first : first? c (d :: rest) =
      some (if isBreak c then .branch else .spaces, 0) := by
    simp [first?, hc, hd]
  obtain ⟨token, stop, kind, -, scanned⟩ := scan_cons first offset
  exact ⟨token, stop, kind, scanned⟩

/-- A bracket is a token of its own, whatever stands behind it. -/
theorem first?_of_bracket? {c : Char} {kind : TokenKind} (h : bracket? c = some kind)
    (rest : List Char) : first? c rest = some (kind, 0) := by
  have hc : c = '{' ∨ c = '[' ∨ c = '(' ∨ c = '}' ∨ c = ']' ∨ c = ')' := by
    unfold bracket? at h
    split at h <;> simp_all
  have hs : isSeparator c = false := by
    rcases hc with rfl | rfl | rfl | rfl | rfl | rfl <;> decide
  have he : enclosed? c rest = none := by
    rcases hc with rfl | rfl | rfl | rfl | rfl | rfl <;> simp [enclosed?]
  simp [first?, hs, he, h]

theorem scan_bracket {c : Char} {kind : TokenKind} (h : bracket? c = some kind)
    (rest : List Char) (offset : Nat) :
    ∃ token stop, token.kind = kind ∧
      scan offset (c :: rest) = (scan stop rest).map (token :: ·) := by
  obtain ⟨token, stop, kind, -, scanned⟩ := scan_cons (first?_of_bracket? h rest) offset
  exact ⟨token, stop, kind, scanned⟩

end Token

theorem tokenize_eq_ok_iff {source : String} {tokens : List Token} :
    tokenize source = .ok tokens ↔ Token.scan 0 source.toList = .ok tokens := by
  rw [tokenize]
  cases Token.scan 0 source.toList with
  | ok found =>
    constructor
    · exact fun h => congrArg Except.ok (Except.ok.inj h)
    · exact fun h => congrArg Except.ok (Except.ok.inj h)
  | error stop => exact iff_of_false nofun nofun

end ConceptSpace.Source
