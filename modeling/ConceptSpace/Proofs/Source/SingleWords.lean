import ConceptSpace.Proofs.Source.Origin
import ConceptSpace.Proofs.Source.Tokens

/-!
# Words that text can produce

A text is a single word if its only token is an atom or a literal; just then it is the key of an atom
(`isSingleWord_of_ofKey`). `Source.atom` accepts all of these words, and besides them texts that start
with a comment or with a shorter literal (`isSingleWord_iff`).
-/

namespace ConceptSpace.Source

open ConceptSpace.Concept (literalOpening literalClosing)
open Token (Cuts Fits joined)

/-- Text whose only token is an atom or a literal. -/
def IsSingleWord (text : String) : Prop :=
  ∃ kind, (kind = .atom ∨ kind = .literal) ∧ tokenize text = .ok [⟨kind, text, 0⟩]

/-- Text that starts with a comment, or with a literal that something follows. -/
def IsCutShort (text : List Char) : Prop :=
  StartsBetween commentOpening commentClosing text ∨
    ∃ start, start <+: text ∧ start ≠ text ∧ IsBetween literalOpening literalClosing start

/-- A text that is a word of the tokens. -/
def IsWordOf (tokens : List Token) (text : String) : Prop :=
  ∃ t ∈ tokens, (t.kind = .atom ∨ t.kind = .literal) ∧ t.text = text

variable {word : String}

/-! ## Single tokens -/

theorem tokenize_eq_singleton_iff {kind : TokenKind} :
    tokenize word = .ok [⟨kind, word, 0⟩] ↔ Fits kind word.toList [] := by
  rw [tokenize_eq_ok_iff_cuts]
  constructor
  · intro h
    rcases h.eq_or_exists with ⟨e, -⟩ | ⟨kind', text, behind, more, split, fits, same, h⟩
    · cases e
    · obtain ⟨token, rfl⟩ := List.cons.inj same
      obtain ⟨rfl, -, -⟩ := Token.mk.inj token
      rcases h.eq_or_exists with ⟨-, rfl⟩ | ⟨_, _, _, _, _, _, none, _⟩
      · rw [List.append_nil] at split
        exact split ▸ fits
      · cases none
  · intro fits
    have h : Cuts 0 (word.toList ++ []) [⟨kind, String.ofList word.toList, 0⟩] [] :=
      .next fits (.start _ [])
    rwa [List.append_nil, String.ofList_toList] at h

theorem isSingleWord_iff_fits :
    IsSingleWord word ↔ Fits .atom word.toList [] ∨ Fits .literal word.toList [] := by
  simp only [IsSingleWord, tokenize_eq_singleton_iff]
  constructor
  · rintro ⟨kind, rfl | rfl, fits⟩
    · exact .inl fits
    · exact .inr fits
  · rintro (fits | fits)
    · exact ⟨_, .inl rfl, fits⟩
    · exact ⟨_, .inr rfl, fits⟩

/-! ## Words that are accepted -/

theorem isLiteralWord_iff :
    Concept.isLiteralWord word = true ↔ IsBetween literalOpening literalClosing word.toList := by
  rw [Concept.isLiteralWord, Bool.and_eq_true, Bool.and_eq_true, decide_eq_true_eq,
    List.isPrefixOf_iff_prefix, List.isSuffixOf_iff_suffix, Storage.Key.utf8ByteSize_eq_byteLength]
  generalize word.toList = cs
  constructor
  · rintro ⟨⟨long, behind, rfl⟩, closed⟩
    -- Neither character of the opening mark can be one of the closing mark.
    have inside : literalClosing <:+ behind := by
      simpa [literalOpening, literalClosing, List.suffix_cons_iff] using closed
    obtain ⟨inner, rfl⟩ := inside
    refine ⟨inner, ?_, rfl⟩
    rintro rfl
    exact absurd long (by decide)
  · rintro ⟨inner, nonempty, rfl⟩
    obtain ⟨c, cs, rfl⟩ := List.exists_cons_of_ne_nil nonempty
    refine ⟨⟨?_, List.prefix_append _ _⟩, ?_⟩
    · have wide := c.utf8Size_pos
      simp only [Storage.Key.byteLength_append, Storage.Key.byteLength_cons]
      have marks : byteLength literalOpening = 2 ∧ byteLength literalClosing = 2 := by decide
      omega
    · rw [← List.append_assoc]
      exact List.suffix_append _ _

theorem isWord_iff : isWord word = true ↔ IsBetween literalOpening literalClosing word.toList ∨
    word.toList ≠ [] ∧ ∀ c ∈ word.toList, Token.isWordChar c = true := by
  rw [isWord, Bool.or_eq_true, isLiteralWord_iff]
  simp

theorem isSingleWord_iff : IsSingleWord word ↔ isWord word = true ∧ ¬ IsCutShort word.toList := by
  rw [isSingleWord_iff_fits, isWord_iff]
  generalize word.toList = cs
  constructor
  · rintro (fits | fits)
    · cases fits with
      | atom nonempty wordChars _ noComment noLiteral =>
        rw [List.append_nil] at noComment noLiteral
        refine ⟨.inr ⟨nonempty, wordChars⟩, ?_⟩
        rintro (comment | ⟨start, hs, -, literal⟩)
        · exact noComment comment
        · exact noLiteral ⟨start, hs, literal⟩
    · cases fits with
      | literal enclosed =>
        refine ⟨.inl enclosed.between, ?_⟩
        rintro (comment | ⟨start, hs, shorter, literal⟩)
        · obtain ⟨inner, -, e⟩ := enclosed.between
          subst e
          have first := (startsBetween_cons_iff.mp comment).1
          cases first
        · exact shorter (enclosed.first start hs literal)
  · rintro ⟨accepted, whole⟩
    obtain ⟨noComment, noLiteral⟩ := not_or.mp whole
    have enclosed : IsBetween literalOpening literalClosing cs → Fits .literal cs [] := by
      intro between
      refine .literal ⟨between, fun start hs literal => ?_⟩
      by_contra shorter
      exact noLiteral ⟨start, hs, shorter, literal⟩
    rcases accepted with between | ⟨nonempty, wordChars⟩
    · exact .inr (enclosed between)
    · by_cases starts : StartsBetween literalOpening literalClosing cs
      · obtain ⟨start, hs, literal⟩ := starts
        obtain rfl : start = cs := by
          by_contra shorter
          exact noLiteral ⟨start, hs, shorter, literal⟩
        exact .inr (enclosed literal)
      · refine .inl (.atom nonempty wordChars (by simp) ?_ ?_)
        · rwa [List.append_nil]
        · rwa [List.append_nil]

/-! ## Keys of atoms -/

theorem ofKey_of_isSingleWord (h : IsSingleWord word) : ofKey word = .ok (.atom word) := by
  obtain ⟨kind, isWord, cut⟩ := h
  have laid : outline word [⟨kind, word, 0⟩] = .ok ⟨.inline, [[.atom word]]⟩ := by
    rcases isWord with rfl | rfl <;> rfl
  have denoted : denote [] word = .ok [.atom word] := by
    have states : States [.atom word] [.atom word] := .of_forall (.cons rfl .nil) (by simp)
    rw [denote_of_outline cut laid, Block.readings, readBranches_of_states (.cons states .nil)]
    exact congrArg Except.ok (Concept.distinct_singleton _)
  rw [ofKey, denoted]
  rfl

theorem exists_denote_of_ofKey {key : String} {c : Concept} (h : ofKey key = .ok c) :
    denote [] key = .ok [c] := by
  unfold ofKey at h
  cases denoted : denote [] key with
  | error e =>
    rw [denoted] at h
    cases h
  | ok cs =>
    rw [denoted] at h
    match cs, h with
    | [d], h =>
      obtain rfl : d = c := Except.ok.inj h
      rfl

theorem eq_nil_of_joined_eq_nil {tokens : List Token} (nonempty : ∀ t ∈ tokens, t.text ≠ "")
    (h : joined tokens = []) : tokens = [] := by
  cases tokens with
  | nil => rfl
  | cons t tokens =>
    have empty : t.text.toList = [] := (List.append_eq_nil_iff.mp h).1
    exact absurd (String.toList_eq_nil_iff.mp empty) (nonempty t (by simp))

/-- A token with the whole text is the only one. -/
theorem eq_singleton_of_cuts {tokens : List Token} (cuts : Cuts 0 word.toList tokens [])
    {token : Token} (ht : token ∈ tokens) (whole : token.text = word) : tokens = [token] := by
  obtain ⟨before, after, rfl⟩ := List.append_of_mem ht
  have texts := cuts.joined_append
  have nonempty := cuts.text_ne_empty
  have length := congrArg List.length texts
  simp only [joined, List.flatMap_append, List.flatMap_cons, List.length_append, whole,
    List.length_nil] at length
  have noneBefore : before = [] :=
    eq_nil_of_joined_eq_nil (fun t hm => nonempty t (by simp [hm]))
      (List.length_eq_zero_iff.mp (by rw [joined]; omega))
  have noneAfter : after = [] :=
    eq_nil_of_joined_eq_nil (fun t hm => nonempty t (by simp [hm]))
      (List.length_eq_zero_iff.mp (by rw [joined]; omega))
  rw [noneBefore, noneAfter, List.nil_append]

theorem isSingleWord_of_ofKey (h : ofKey word = .ok (.atom word)) : IsSingleWord word := by
  obtain ⟨tokens, root, cut, laid, made⟩ := exists_outline_of_denote (exists_denote_of_ofKey h)
  -- The word of an atom is the text of a token.
  have holds := Outline.holds_of_outline (P := IsWordOf tokens)
    (fun t ht isWord => ⟨t, ht, isWord, rfl⟩) laid
  have built : ∀ c ∈ [Concept.atom word], Concept.BuiltFrom (IsWordOf tokens) c := by
    rw [made]
    exact built_of_branches holds (by simp)
  have own : word ∈ (Concept.atom word).words := by simp
  obtain ⟨token, ht, isWord, whole⟩ := (built _ (List.mem_singleton_self _)).of_mem_words own
  have cuts := tokenize_eq_ok_iff_cuts.mp cut
  have only := eq_singleton_of_cuts cuts ht whole
  rw [only] at cut cuts
  refine ⟨token.kind, isWord, ?_⟩
  rw [cut, ← whole, ← cuts.span.1]

/-- A text is one word just if it is the key of its atom. Each of these words is accepted as an atom,
and what is accepted besides them starts with a comment or with a shorter literal. -/
theorem isSingleWord_iff_key_and_accepted (word : String) :
    (IsSingleWord word ↔ ofKey word = .ok (.atom word)) ∧
      (IsSingleWord word ↔ (∃ c, atom word = .ok c) ∧ ¬ IsCutShort word.toList) := by
  refine ⟨⟨ofKey_of_isSingleWord, isSingleWord_of_ofKey⟩, ?_⟩
  have accepted : (∃ c, atom word = .ok c) ↔ isWord word = true := by
    rw [atom]
    split <;> simp [*]
  rw [accepted]
  exact isSingleWord_iff

/-- A comment is accepted as an atom. -/
theorem commentWord_accepted : (∃ c, atom "/*a*/" = .ok c) ∧ ¬ IsSingleWord "/*a*/" := by
  refine ⟨⟨.atom "/*a*/", rfl⟩, fun single => ?_⟩
  exact (isSingleWord_iff.mp single).2 (.inl ⟨_, List.prefix_refl _, ['a'], by simp, rfl⟩)

end ConceptSpace.Source
