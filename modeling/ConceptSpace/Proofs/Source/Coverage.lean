import ConceptSpace.Proofs.Concept.Inside
import ConceptSpace.Proofs.Source.Nesting
import ConceptSpace.Proofs.Source.Origin

/-!
# Nothing written is lost

Every word of a source text stands in some reading of its outline. The outline takes the words in
one after the other; closing a block hands them to the block around it (`Stack.Mentions.step`). When
a branch is read, the sequences at hand keep their words, and what a block says either continues
them or is stated aside (`says_of_says_readings`). The other way round no word is invented, and no
reading is empty, so that a text denotes nothing just if it has no word (`readings_cover`).
-/

namespace ConceptSpace

namespace Concept.BuiltFrom

theorem words_ne_nil {P : String → Prop} {c : Concept} (h : BuiltFrom P c) : c.words ≠ [] := by
  induction h with
  | atom => simp
  | @compound ps two _ _ ih =>
    obtain ⟨p, hp⟩ := List.exists_mem_of_length_pos (l := ps) (by omega)
    obtain ⟨word, hw⟩ := List.exists_mem_of_ne_nil _ (ih p hp)
    exact List.ne_nil_of_mem (by simpa using ⟨p, hp, hw⟩)

end Concept.BuiltFrom

namespace Source

/-- A token whose text is a word of the outline. -/
def Token.IsWord (t : Token) : Prop :=
  t.kind = .atom ∨ t.kind = .literal

instance (t : Token) : Decidable t.IsWord :=
  inferInstanceAs (Decidable (_ ∨ _))

/-! ## The words of an outline -/

/-- The word stands somewhere in a node. -/
inductive Node.Mentions (word : String) : Node → Prop where
  | atom : Mentions word (.atom word)
  | block {bracket : Bracket} {branches : List Branch} {branch : Branch} {node : Node}
    (hb : branch ∈ branches) (hn : node ∈ branch) (h : node.Mentions word) :
    Mentions word (.block bracket branches)

namespace Outline

/-- The word stands in a block under construction. -/
def Frame.Mentions (word : String) (f : Frame) : Prop :=
  ∃ branch ∈ f.branches, ∃ node ∈ branch, node.Mentions word

/-- The word stands in one of the open blocks. -/
def Stack.Mentions (word : String) (s : Stack) : Prop :=
  s.top.Mentions word ∨ ∃ f ∈ s.outer, f.Mentions word

variable {word : String} {f parent : Frame} {node : Node}

theorem Frame.mentions_iff : f.Mentions word ↔
    (∃ branch ∈ f.finished, ∃ node ∈ branch, node.Mentions word) ∨
      ∃ node ∈ f.current, node.Mentions word := by
  unfold Frame.Mentions Frame.branches
  split
  case isTrue empty => simp [List.isEmpty_iff.mp empty]
  case isFalse => simp [or_and_right, exists_or]

theorem Frame.mentions_push :
    (f.push node).Mentions word ↔ f.Mentions word ∨ node.Mentions word := by
  rw [mentions_iff, mentions_iff, or_assoc]
  simp [Frame.push, or_and_right, exists_or]

theorem Frame.mentions_nextBranch : f.nextBranch.Mentions word ↔ f.Mentions word := by
  rw [mentions_iff]
  simp [Frame.nextBranch, Frame.Mentions]

/-- A closed block leaves its words to the block around it. -/
theorem Frame.mentions_closeInto :
    (f.closeInto parent).Mentions word ↔ parent.Mentions word ∨ f.Mentions word := by
  unfold Frame.closeInto
  split
  case isTrue empty =>
    have none : ¬ f.Mentions word := by
      rintro ⟨branch, hb, -⟩
      simp [List.isEmpty_iff.mp empty] at hb
    simp [none]
  case isFalse =>
    rw [mentions_push]
    refine or_congr_right ⟨?_, ?_⟩
    · rintro (_ | ⟨hb, hn, h⟩)
      exact ⟨_, hb, _, hn, h⟩
    · rintro ⟨branch, hb, node, hn, h⟩
      exact .block hb hn h

theorem Stack.Mentions.step {s next : Stack} {t : Token}
    (h : s.Mentions word ∨ t.IsWord ∧ t.text = word) (stepped : s.step t = .ok next) :
    next.Mentions word := by
  have pushed : t.IsWord → next = { s with top := s.top.push (.atom t.text) } := by
    rintro (kind | kind) <;> simpa [Stack.step, kind] using stepped.symm
  rcases h with h | ⟨isWord, rfl⟩
  · unfold Stack.step at stepped
    cases kind : t.kind with
    | spaces | comment =>
      simp only [kind] at stepped
      exact Except.ok.inj stepped ▸ h
    | branch | multiLineComment =>
      simp only [kind] at stepped
      obtain rfl := Except.ok.inj stepped
      exact h.imp_left Frame.mentions_nextBranch.mpr
    | atom | literal =>
      obtain rfl := pushed (by simp [Token.IsWord, kind])
      exact h.imp_left fun top => Frame.mentions_push.mpr (.inl top)
    | opening b =>
      simp only [kind] at stepped
      obtain rfl := Except.ok.inj stepped
      refine .inr ?_
      rcases h with top | ⟨f, hf, h⟩
      · exact ⟨s.top, by simp, top⟩
      · exact ⟨f, by simp [hf], h⟩
    | closing b =>
      simp only [kind, Stack.close] at stepped
      obtain ⟨top, outer⟩ := s
      cases outer with
      | nil => cases stepped
      | cons parent outer =>
        simp only at stepped
        split at stepped
        case isFalse => cases stepped
        case isTrue =>
          obtain rfl := Except.ok.inj stepped
          rcases h with top | ⟨f, hf, h⟩
          · exact .inl (Frame.mentions_closeInto.mpr (.inr top))
          · rcases List.mem_cons.mp hf with rfl | hf
            · exact .inl (Frame.mentions_closeInto.mpr (.inl h))
            · exact .inr ⟨f, hf, h⟩
  · obtain rfl := pushed isWord
    exact .inl (Frame.mentions_push.mpr (.inr .atom))

theorem Stack.Mentions.run {s last : Stack} {tokens : List Token}
    (h : s.Mentions word ∨ ∃ t ∈ tokens, t.IsWord ∧ t.text = word)
    (ran : s.run tokens = .ok last) : last.Mentions word := by
  induction tokens generalizing s with
  | nil =>
    obtain rfl := Except.ok.inj ran
    simpa using h
  | cons t tokens ih =>
    obtain ⟨next, stepped, rest⟩ := Stack.exists_of_run_cons ran
    rcases h with h | ⟨t', ht, isWord⟩
    · exact ih (.inl (Mentions.step (.inl h) stepped)) rest
    · rcases List.mem_cons.mp ht with rfl | ht
      · exact ih (.inl (Mentions.step (.inr isWord) stepped)) rest
      · exact ih (.inr ⟨t', ht, isWord⟩) rest

/-- The words of all tokens stand in their outline. -/
theorem mentions_of_outline {source : String} {tokens : List Token} {root : Block}
    (laid : outline source tokens = .ok root) {t : Token} (ht : t ∈ tokens) (isWord : t.IsWord) :
    ∃ branch ∈ root.branches, ∃ node ∈ branch, node.Mentions t.text := by
  have laid := outline_eq_ok_iff.mp laid
  unfold ofTokens at laid
  cases ran : Stack.root.run tokens with
  | error fault => simp [ran] at laid
  | ok last =>
    have mentioned := Stack.Mentions.run (.inr ⟨t, ht, isWord, rfl⟩) ran
    obtain ⟨top, outer⟩ := last
    cases outer with
    | cons parent outer => simp [ran, Stack.finish] at laid
    | nil =>
      simp only [ran, Stack.finish] at laid
      obtain rfl := Except.ok.inj laid
      simpa [Stack.Mentions, Frame.Mentions] using mentioned

end Outline

/-! ## The words of readings -/

/-- The word stands in one of some sequences. -/
def Says (word : String) (sequences : List (List Concept)) : Prop :=
  ∃ parts ∈ sequences, ∃ part ∈ parts, word ∈ part.words

variable {word : String} {sequences more : List (List Concept)} {readings : List Reading}

theorem says_append_iff : Says word (sequences ++ more) ↔ Says word sequences ∨ Says word more := by
  simp [Says, or_and_right, exists_or]

/-- Continuing sequences drops no word, neither of the sequences nor of the continuations. -/
theorem says_combine (h : Says word sequences ∨ Says word more) :
    Says word (Reading.combine sequences more) := by
  unfold Reading.combine
  split
  case isTrue none =>
    refine h.resolve_right ?_
    simp [Says, List.isEmpty_iff.mp none]
  case isFalse some =>
    split
    case isTrue none =>
      refine h.resolve_left ?_
      simp [Says, List.isEmpty_iff.mp none]
    case isFalse some' =>
      obtain ⟨right, hr⟩ := List.exists_mem_of_ne_nil more (by simpa using some)
      obtain ⟨left, hl⟩ := List.exists_mem_of_ne_nil sequences (by simpa using some')
      rcases h with ⟨parts, hm, p, hp, hw⟩ | ⟨parts, hm, p, hp, hw⟩
      · refine ⟨parts ++ right, ?_, p, by simp [hp], hw⟩
        exact List.mem_flatMap.mpr ⟨parts, hm, List.mem_map_of_mem hr⟩
      · refine ⟨left ++ parts, ?_, p, by simp [hp], hw⟩
        exact List.mem_flatMap.mpr ⟨left, hl, List.mem_map_of_mem hm⟩

/-- A sequence makes a concept of its words. -/
theorem says_ofParts (h : Says word sequences) :
    Says word ((sequences.filterMap Concept.ofParts?).map ([·])) := by
  obtain ⟨parts, hm, p, hp, hw⟩ := h
  obtain ⟨c, made⟩ : ∃ c, Concept.ofParts? parts = some c := by
    rw [← Option.ne_none_iff_exists', ne_eq, Concept.ofParts?_eq_none_iff]
    exact List.ne_nil_of_mem hp
  have hw : word ∈ c.words :=
    (Concept.words_perm_of_ofParts? made).mem_iff.mpr (List.mem_flatMap.mpr ⟨p, hp, hw⟩)
  exact ⟨[c], List.mem_map_of_mem (List.mem_filterMap.mpr ⟨parts, hm, made⟩), c, by simp, hw⟩

theorem says_continuing_or_asides (h : Says word (readings.map (·.parts))) :
    Says word (Reading.continuing readings) ∨ Says word (Reading.asides readings) := by
  obtain ⟨_, hm, p, hp, hw⟩ := h
  obtain ⟨r, hr, rfl⟩ := List.mem_map.mp hm
  cases aside : r.aside with
  | false =>
    exact .inl ⟨r.parts, List.mem_map_of_mem (List.mem_filter.mpr ⟨hr, by simp [aside]⟩), p, hp, hw⟩
  | true =>
    exact .inr ⟨r.parts, List.mem_map_of_mem (List.mem_filter.mpr ⟨hr, aside⟩), p, hp, hw⟩

/-- What a block says it states aside or lets continue what stands before it, whatever that is. -/
theorem says_of_says_readings (bracket : Bracket) (tails : List Concept)
    (h : Says word (readings.map (·.parts))) :
    Says word (bracket.statedAside tails readings) ∨
      Says word (bracket.continuations tails readings) := by
  have h := says_continuing_or_asides h
  cases bracket with
  | inline => exact h.symm
  | nested =>
    simp only [Bracket.statedAside, Bracket.continuations]
    rcases h with h | h
    · exact .inr (says_ofParts (says_append_iff.mpr (.inl h)))
    · -- Where the asides are not kept, no part in front is a directive, and so they are stated.
      cases directive : tails.any (·.isDirective) with
      | true => exact .inr (says_ofParts (says_append_iff.mpr (.inr (by simpa using h))))
      | false =>
        have stated : (tails.isEmpty || tails.any (!·.isDirective)) = true := by
          cases tails with
          | nil => rfl
          | cons c tails =>
            have plain : c.isDirective = false := by simp_all
            simp [plain]
        exact .inl (by rwa [if_pos stated])
  | parenthetical =>
    refine .inl (says_append_iff.mpr (h.imp_left ?_))
    rintro ⟨right, hr, p, hp, hw⟩
    cases tails with
    | nil => exact ⟨right, List.mem_flatMap.mpr ⟨right, hr, by simp⟩, p, hp, hw⟩
    | cons c tails =>
      exact ⟨c :: right, List.mem_flatMap.mpr ⟨right, hr, by simp⟩, p, by simp [hp], hw⟩

mutual

/-- A branch says the words of the sequences at hand and of its nodes. -/
theorem says_readNodes : (nodes : List Node) → (sequences : List (List Concept)) →
    (Says word sequences ∨ ∃ node ∈ nodes, node.Mentions word) →
      Says word ((readNodes nodes sequences).map (·.parts))
  | [], sequences, h => by
    rw [readNodes, List.map_map]
    simpa [Says] using h
  | .atom other :: nodes, sequences, h => by
    rw [readNodes]
    refine says_readNodes nodes _ ?_
    rcases h with h | ⟨node, hn, h⟩
    · exact .inl (says_combine (.inl h))
    · rcases List.mem_cons.mp hn with rfl | hn
      · cases h
        exact .inl (says_combine (.inr (by simp [Says])))
      · exact .inr ⟨node, hn, h⟩
  | .block bracket branches :: nodes, sequences, h => by
    rw [readNodes, List.map_append, List.map_map, says_append_iff]
    rcases h with h | ⟨node, hn, h⟩
    · exact .inr (says_readNodes nodes _ (.inl (says_combine (.inl h))))
    · rcases List.mem_cons.mp hn with rfl | hn
      · cases h with
        | block hb hn h =>
          have inner := says_readBranches branches ⟨_, hb, _, hn, h⟩
          rcases says_of_says_readings bracket (Reading.tails sequences) inner with said | said
          · exact .inl (by simpa [Function.comp_def] using said)
          · exact .inr (says_readNodes nodes _ (.inl (says_combine (.inr said))))
      · exact .inr (says_readNodes nodes _ (.inr ⟨node, hn, h⟩))

theorem says_readBranches : (branches : List (List Node)) →
    (∃ branch ∈ branches, ∃ node ∈ branch, node.Mentions word) →
      Says word ((readBranches branches).map (·.parts))
  | [], h => by simp at h
  | branch :: branches, ⟨other, hb, node, hn, h⟩ => by
    rw [readBranches, List.map_append, says_append_iff]
    rcases List.mem_cons.mp hb with same | hb
    · exact .inl (says_readNodes branch [] (.inr ⟨node, same ▸ hn, h⟩))
    · exact .inr (says_readBranches branches ⟨other, hb, node, hn, h⟩)

end

/-! ## No empty reading -/

theorem nil_notMem_combine (hs : [] ∉ sequences) (hm : [] ∉ more) :
    [] ∉ Reading.combine sequences more := by
  unfold Reading.combine
  split
  · exact hs
  · split
    · exact hm
    · intro h
      obtain ⟨left, hl, h⟩ := List.mem_flatMap.mp h
      obtain ⟨right, -, h⟩ := List.mem_map.mp h
      exact hs ((List.append_eq_nil_iff.mp h).1 ▸ hl)

section

variable (h : [] ∉ readings.map (·.parts))

include h in
theorem nil_notMem_continuing : [] ∉ Reading.continuing readings :=
  fun hm => h (List.map_subset _ List.filter_sublist.subset hm)

include h in
theorem nil_notMem_asides : [] ∉ Reading.asides readings :=
  fun hm => h (List.map_subset _ List.filter_sublist.subset hm)

include h in
theorem nil_notMem_statedAside (bracket : Bracket) (tails : List Concept) :
    [] ∉ bracket.statedAside tails readings := by
  cases bracket with
  | inline => exact nil_notMem_asides h
  | nested =>
    unfold Bracket.statedAside
    dsimp only
    split
    · exact nil_notMem_asides h
    · simp
  | parenthetical =>
    intro hm
    refine (List.mem_append.mp hm).elim (fun hm => ?_) (nil_notMem_asides h)
    obtain ⟨right, hr, hm⟩ := List.mem_flatMap.mp hm
    split at hm
    · obtain rfl := List.mem_singleton.mp hm
      exact nil_notMem_continuing h hr
    · simp at hm

include h in
theorem nil_notMem_continuations (bracket : Bracket) (tails : List Concept) :
    [] ∉ bracket.continuations tails readings := by
  cases bracket with
  | inline => exact nil_notMem_continuing h
  | nested => simp [Bracket.continuations]
  | parenthetical => simp [Bracket.continuations]

end

mutual

theorem nil_notMem_readNodes : (nodes : List Node) → (sequences : List (List Concept)) →
    [] ∉ sequences → [] ∉ (readNodes nodes sequences).map (·.parts)
  | [], sequences, h => by
    rw [readNodes, List.map_map]
    simpa using h
  | .atom word :: nodes, sequences, h => by
    rw [readNodes]
    exact nil_notMem_readNodes nodes _ (nil_notMem_combine h (by simp))
  | .block bracket branches :: nodes, sequences, h => by
    have inner := nil_notMem_readBranches branches
    rw [readNodes, List.map_append, List.map_map, List.mem_append, not_or]
    refine ⟨?_, ?_⟩
    · simpa [Function.comp_def] using nil_notMem_statedAside inner bracket (Reading.tails sequences)
    · exact nil_notMem_readNodes nodes _
        (nil_notMem_combine h (nil_notMem_continuations inner bracket _))

theorem nil_notMem_readBranches : (branches : List (List Node)) →
    [] ∉ (readBranches branches).map (·.parts)
  | [] => by simp [readBranches]
  | branch :: branches => by
    rw [readBranches, List.map_append, List.mem_append, not_or]
    exact ⟨nil_notMem_readNodes branch [] (by simp), nil_notMem_readBranches branches⟩

end

/-! ## Main statement -/

/-- The words of the readings are the words of the text. -/
theorem built_of_outline {source : String} {tokens : List Token} {root : Block}
    (laid : outline source tokens = .ok root) :
    ∀ reading ∈ root.readings, ∀ part ∈ reading.parts,
      Concept.BuiltFrom (fun word => ∃ t ∈ tokens, t.IsWord ∧ t.text = word) part := by
  have holds := Outline.holds_of_outline
    (P := fun word => ∃ t ∈ tokens, t.IsWord ∧ t.text = word)
    (fun t ht isWord => ⟨t, ht, isWord, rfl⟩) laid
  exact fun reading hr =>
    allBuilt_readBranches root.branches holds _ (List.mem_map_of_mem hr)

/-- Every word that is written stands in a reading of the outline, every word in a reading has been
written, and no reading is empty. So the text denotes some concept just if it has a word. -/
theorem readings_cover {source : String} {tokens : List Token} {root : Block}
    (cut : tokenize source = .ok tokens) (laid : outline source tokens = .ok root) :
    (∀ t ∈ tokens, t.IsWord →
      ∃ reading ∈ root.readings, ∃ part ∈ reading.parts, t.text ∈ part.words) ∧
    (∀ reading ∈ root.readings, reading.parts ≠ [] ∧
      ∀ part ∈ reading.parts, ∀ word ∈ part.words, ∃ t ∈ tokens, t.IsWord ∧ t.text = word) ∧
    ∃ cs, conceptsOf [source] = .ok cs ∧ (cs = [] ↔ ∀ t ∈ tokens, ¬ t.IsWord) := by
  have covered : ∀ t ∈ tokens, t.IsWord →
      ∃ reading ∈ root.readings, ∃ part ∈ reading.parts, t.text ∈ part.words := by
    intro t ht isWord
    obtain ⟨_, hm, said⟩ := says_readBranches root.branches
      (Outline.mentions_of_outline laid ht isWord)
    obtain ⟨reading, hr, rfl⟩ := List.mem_map.mp hm
    exact ⟨reading, hr, said⟩
  have filled : ∀ reading ∈ root.readings, reading.parts ≠ [] := fun reading hr empty =>
    nil_notMem_readBranches root.branches (empty ▸ List.mem_map_of_mem hr)
  have built := built_of_outline laid
  have invented : ∀ reading ∈ root.readings, ∀ part ∈ reading.parts, ∀ word ∈ part.words,
      ∃ t ∈ tokens, t.IsWord ∧ t.text = word :=
    fun reading hr part hp _ hw => (built reading hr part hp).of_mem_words hw
  refine ⟨covered, fun reading hr => ⟨filled reading hr, invented reading hr⟩, ?_⟩
  refine ⟨_, (conceptsOf_singleton source).trans (denote_of_outline cut laid _), ?_⟩
  rw [Concept.distinct_eq_nil_iff, List.filterMap_eq_nil_iff]
  constructor
  · intro none t ht isWord
    obtain ⟨reading, hr, -⟩ := covered t ht isWord
    have empty := none _ (List.mem_map_of_mem hr)
    rw [Concept.ofParts?_eq_none_iff] at empty
    exact filled reading hr (Concept.resolveSelf_eq_nil_iff.mp empty)
  · intro noWord parts hp
    obtain ⟨reading, hr, -⟩ := List.mem_map.mp hp
    obtain ⟨part, hm⟩ := List.exists_mem_of_ne_nil _ (filled reading hr)
    obtain ⟨word, hw⟩ := List.exists_mem_of_ne_nil _ (built reading hr part hm).words_ne_nil
    obtain ⟨t, ht, isWord, -⟩ := invented reading hr part hm word hw
    exact absurd isWord (noWord t ht)

/-- An alternation, and behind a directive a parenthetical block. -/
private def scopedText : String := "\x7bt\x7d [@m [$x (T)]]"

private def scopedTokens : List Token :=
  [⟨.opening .inline, "\x7b", 0⟩, ⟨.atom, "t", 1⟩, ⟨.closing .inline, "\x7d", 2⟩, ⟨.spaces, " ", 3⟩,
    ⟨.opening .nested, "[", 4⟩, ⟨.atom, "@m", 5⟩, ⟨.spaces, " ", 7⟩, ⟨.opening .nested, "[", 8⟩,
    ⟨.atom, "$x", 9⟩, ⟨.spaces, " ", 11⟩, ⟨.opening .parenthetical, "(", 12⟩, ⟨.atom, "T", 13⟩,
    ⟨.closing .parenthetical, ")", 14⟩, ⟨.closing .nested, "]", 15⟩, ⟨.closing .nested, "]", 16⟩]

private def scopedRoot : Block :=
  ⟨.inline, [[.block .inline [[.atom "t"]], .block .nested [[.atom "@m",
    .block .nested [[.atom "$x", .block .parenthetical [[.atom "T"]]]]]]]]⟩

theorem scopedText_covered :
    tokenize scopedText = .ok scopedTokens ∧ outline scopedText scopedTokens = .ok scopedRoot ∧
      (∃ reading ∈ scopedRoot.readings, ∃ part ∈ reading.parts, "T" ∈ part.words) ∧
      ∃ cs, conceptsOf [scopedText] = .ok cs ∧ cs ≠ [] := by
  have cut : tokenize scopedText = .ok scopedTokens := by decide +kernel
  have laid : outline scopedText scopedTokens = .ok scopedRoot := rfl
  have written : (⟨.atom, "T", 13⟩ : Token) ∈ scopedTokens := by decide
  obtain ⟨covered, -, cs, denoted, empty⟩ := readings_cover cut laid
  refine ⟨cut, laid, covered _ written (by decide), cs, denoted, fun none => ?_⟩
  exact empty.mp none _ written (by decide)

end Source

end ConceptSpace
