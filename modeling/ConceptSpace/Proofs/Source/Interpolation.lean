import ConceptSpace.Proofs.Facts.Solutions
import ConceptSpace.Proofs.Pattern.Substitution
import ConceptSpace.Proofs.Source.Origin

/-!
# Source texts with values put in

A text has *plain atoms* if its atoms start neither like a literal nor like a comment, and none of
them is `&`. Such a text denotes clean concepts without `&`, and so it does with values put in that
are such concepts (`isSelfFree_of_interpolate`): each word of what is read is a token of the text or
a word of the values.
-/

namespace ConceptSpace

namespace Concept

variable {c : Concept}

/-- A word that clean concepts without `&` are built from. -/
def IsFreeWord (word : String) : Prop :=
  Source.isToken word = true ∧ word ≠ selfReference

theorem BuiltFrom.isSelfFree (h : BuiltFrom IsFreeWord c) : c.IsSelfFree where
  clean := h.clean fun _ _ free => free.1
  noSelf hw := (h.of_mem_words hw).2 rfl

theorem IsSelfFree.isFreeWord (h : c.IsSelfFree) {word : String} (hw : word ∈ c.words) :
    IsFreeWord word :=
  ⟨h.clean.isToken_of_mem_words hw, fun same => h.noSelf (same ▸ hw)⟩

end Concept

namespace Source

open ConceptSpace.Concept (IsFreeWord IsSelfFree)

/-! ## Texts with plain atoms -/

/-- The atoms of a text start neither like a literal nor like a comment, and none of them is `&`. -/
def HasPlainAtoms (source : String) : Prop :=
  ∀ tokens, tokenize source = .ok tokens → ∀ token ∈ tokens, token.kind = .atom →
    Concept.literalOpening.isPrefixOf token.text.toList = false ∧
      commentOpening.isPrefixOf token.text.toList = false ∧ token.text ≠ Concept.selfReference

instance (source : String) : Decidable (HasPlainAtoms source) :=
  match cut : tokenize source with
  | .error _ => .isTrue fun _ cut' => nomatch cut.symm.trans cut'
  | .ok tokens => decidable_of_iff
      (∀ token ∈ tokens, token.kind = .atom →
        Concept.literalOpening.isPrefixOf token.text.toList = false ∧
          commentOpening.isPrefixOf token.text.toList = false ∧
            token.text ≠ Concept.selfReference)
      ⟨fun h _ cut' => Except.ok.inj (cut.symm.trans cut') ▸ h, fun h => h tokens cut⟩

variable {source : String} {sources : List String} {values : Values} {cs ds : List Concept}

/-- What a text with plain atoms denotes is clean and has no `&`. -/
theorem isSelfFree_of_concepts (plain : HasPlainAtoms source) (h : concepts source = .ok cs) :
    ∀ c ∈ cs, IsSelfFree c := by
  have words : ∀ tokens, tokenize source = .ok tokens → ∀ token ∈ tokens,
      token.kind = .atom ∨ token.kind = .literal → IsFreeWord token.text := by
    intro tokens cut token ht isWord
    have text := Token.isTextOf_of_tokenize cut token ht
    rcases isWord with kind | kind
    · obtain ⟨literal, comment, noSelf⟩ := plain tokens cut token ht kind
      refine ⟨(text.isTokenText (.inl kind)).isToken fun unclosed => ?_, noSelf⟩
      simp [IsUnclosed, literal, comment] at unclosed
    · rw [kind] at text
      have whole : isWholeLiteral token.text = true := text
      refine ⟨by simp [isToken, whole], fun same => ?_⟩
      exact absurd (same ▸ whole) (by decide)
  exact fun c hc => (built_of_concepts words h c hc).isSelfFree

/-! ## Values put in -/

section Words

variable {P : String → Prop} {c : Concept}

theorem Node.holds_toNode (h : ∀ word ∈ c.words, P word) : c.toNode.Holds P := by
  induction c with
  | atom word => exact .atom (h word (by simp))
  | compound ps ih =>
    refine .block fun branch hb node hn => ?_
    obtain rfl := List.mem_singleton.mp hb
    rw [Concept.toNodes_eq_map] at hn
    obtain ⟨p, hp, rfl⟩ := List.mem_map.mp hn
    exact ih p hp fun word hw => h word (Concept.mem_words_of_mem_parts (c := .compound ps) hp hw)

/-- The outline of a concept has its words. -/
theorem Node.holds_of_mem_toBranch (h : ∀ word ∈ c.words, P word) :
    ∀ node ∈ c.toBranch, node.Holds P := by
  cases c with
  | atom word => simpa [Concept.toBranch] using Node.Holds.atom (h word (by simp))
  | compound ps =>
    intro node hn
    rw [Concept.toBranch, Concept.toNodes_eq_map] at hn
    obtain ⟨p, hp, rfl⟩ := List.mem_map.mp hn
    exact holds_toNode fun word hw =>
      h word (Concept.mem_words_of_mem_parts (c := .compound ps) hp hw)

/-- The outline of a concept with values put in has the words of the concept and of the values. -/
theorem Node.holds_of_mem_filledBranch (h : ∀ word ∈ c.words, P word)
    (inserted : ∀ name, ∀ value ∈ values name, ∀ word ∈ value.words, P word) :
    ∀ node ∈ c.filledBranch values, node.Holds P := by
  induction c with
  | atom word =>
    by_cases free : Concept.startsWith '$' word = true → values word = []
    · rw [(Concept.filled_atom_of_free free).2]
      simpa using Node.Holds.atom (h word (by simp))
    · obtain ⟨hv, bound⟩ := Classical.not_imp.mp free
      rw [(Concept.filled_atom_of_bound hv bound).2]
      simp only [List.mem_singleton, forall_eq]
      refine .block fun branch hb => ?_
      obtain ⟨value, hm, rfl⟩ := List.mem_map.mp hb
      exact holds_of_mem_toBranch (inserted word value hm)
  | compound ps ih =>
    intro node hn
    rw [Concept.filledBranch, Concept.filledNodes_eq_map] at hn
    obtain ⟨p, hp, rfl⟩ := List.mem_map.mp hn
    refine .block fun branch hb => ?_
    obtain rfl := List.mem_singleton.mp hb
    exact ih p hp fun word hw => h word (Concept.mem_words_of_mem_parts (c := .compound ps) hp hw)

end Words

/-- What comes of putting clean values into clean concepts is built from the words of both. -/
theorem built_of_substitute {P : String → Prop} (hc : ∀ c ∈ cs, c.Clean)
    (clean : ∀ name, ∀ value ∈ values name, value.Clean) (words : ∀ c ∈ cs, ∀ word ∈ c.words, P word)
    (inserted : ∀ name, ∀ value ∈ values name, ∀ word ∈ value.words, P word)
    (h : substitute values cs = .ok ds) : ∀ d ∈ ds, Concept.BuiltFrom P d := by
  by_cases nonempty : cs = []
  · subst nonempty
    obtain rfl : [] = ds := Except.ok.inj ((denote_empty _).symm.trans h)
    simp
  · have spells := Concept.Clean.spellsBranches_filled nonempty hc clean
    obtain ⟨tokens, cut, laid⟩ := outline_of_spells spells
    have holds : ∀ branch ∈ cs.map (Concept.filledBranch values), ∀ node ∈ branch,
        node.Holds P := by
      intro branch hb
      obtain ⟨c, hm, rfl⟩ := List.mem_map.mp hb
      exact Node.holds_of_mem_filledBranch (words c hm) inserted
    obtain rfl := Except.ok.inj ((denote_of_outline cut laid _).symm.trans h)
    refine built_of_branches holds ?_
    simpa using fun parts => Concept.BuiltFrom.resolveSelf

/-- Clean values, put into clean concepts, give clean concepts. -/
theorem clean_of_substitute (hc : ∀ c ∈ cs, c.Clean)
    (clean : ∀ name, ∀ value ∈ values name, value.Clean) (h : substitute values cs = .ok ds) :
    ∀ d ∈ ds, d.Clean := by
  have built := built_of_substitute hc clean (fun c hm _ hw => (hc c hm).isToken_of_mem_words hw)
    (fun name value hm _ hw => (clean name value hm).isToken_of_mem_words hw) h
  exact fun d hd => (built d hd).clean fun _ _ token => token

/-- Clean values without `&`, put into such concepts, give such concepts. -/
theorem isSelfFree_of_substitute (hc : ∀ c ∈ cs, IsSelfFree c)
    (inserted : ∀ name, ∀ value ∈ values name, IsSelfFree value)
    (h : substitute values cs = .ok ds) : ∀ d ∈ ds, IsSelfFree d := by
  have built := built_of_substitute (fun c hm => (hc c hm).clean)
    (fun name value hm => (inserted name value hm).clean)
    (fun c hm _ hw => (hc c hm).isFreeWord hw)
    (fun name value hm _ hw => (inserted name value hm).isFreeWord hw) h
  exact fun d hd => (built d hd).isSelfFree

/-- What texts with plain atoms denote, with clean values without `&` put in, is clean and has no
`&`. -/
theorem isSelfFree_of_interpolate (plain : HasPlainAtoms ("\n".intercalate sources))
    (inserted : ∀ name, ∀ value ∈ values name, IsSelfFree value)
    (h : interpolate values sources = .ok cs) : ∀ c ∈ cs, IsSelfFree c := by
  rw [interpolate] at h
  cases read : conceptsOf sources with
  | error e => rw [read] at h; cases h
  | ok found =>
    rw [read] at h
    exact isSelfFree_of_substitute (isSelfFree_of_concepts plain read) inserted h

end Source

end ConceptSpace
