import ConceptSpace.Proofs.Concept.Words
import ConceptSpace.Proofs.Source.Tokens

/-!
# Concepts read from source text

Every concept that source text denotes is built from words that were tokens of the text: literals
that end at their first closing mark, and runs of word characters. Reordering sets, fanning out,
stating aside and resolving `&` only put such concepts together (`built_of_concepts`). A run of word
characters may start like a literal or a comment that is never closed. In a key, where the words
stand in another order, something may close it; a concept without such words is clean, and its key
names it (`ofKey_key_of_conceptsOf`).
-/

namespace ConceptSpace

namespace Concept

/-! ## Concepts built from words -/

/-- The concepts that the constructors of compounds build from words with a property. -/
inductive BuiltFrom (P : String → Prop) : Concept → Prop where
  /-- A word. -/
  | atom {word : String} (h : P word) : BuiltFrom P (.atom word)
  /-- At least two parts, in order if they are those of a set. -/
  | compound {ps : List Concept} (two : 2 ≤ ps.length) (parts : ∀ p ∈ ps, BuiltFrom P p)
    (arranged : IsArranged ps) : BuiltFrom P (.compound ps)

namespace BuiltFrom

variable {P : String → Prop} {c : Concept} {ps : List Concept}

theorem ofParts? (parts : ∀ p ∈ ps, BuiltFrom P p) (h : Concept.ofParts? ps = some c) :
    BuiltFrom P c := by
  match ps, h with
  | [p], h =>
    obtain rfl : p = c := Option.some.inj h
    exact parts p (by simp)
  | head :: member :: members, h =>
    obtain ⟨placed, made, perm, arranged⟩ :=
      ofParts?_eq_compound (head :: member :: members) (by simp)
    obtain rfl : Concept.compound placed = c := Option.some.inj (made.symm.trans h)
    exact .compound (by simp [perm.length_eq]) (fun p hp => parts p (perm.mem_iff.mp hp)) arranged

theorem of_mem_words (h : BuiltFrom P c) {word : String} (hw : word ∈ c.words) : P word := by
  induction h with
  | atom h =>
    obtain rfl := List.mem_singleton.mp hw
    exact h
  | compound _ _ _ ih =>
    obtain ⟨p, hp, hw⟩ := List.mem_flatMap.mp (words_compound _ ▸ hw)
    exact ih p hp hw

/-- A concept built from words that are one token is clean. -/
theorem clean (h : BuiltFrom P c) (tokens : ∀ word ∈ c.words, P word → Source.isToken word = true) :
    c.Clean := by
  induction h with
  | @atom word h => exact clean_atom_iff.mpr (tokens word (by simp) h)
  | @compound ps two parts arranged ih =>
    refine clean_compound_iff.mpr ⟨two, fun p hp => ih p hp fun word hw => ?_, arranged⟩
    exact tokens word (mem_words_of_mem_parts (c := .compound ps) hp hw)

/-- Putting one concept in for every `&` of another keeps to the words of both. -/
theorem replaceSelf {head : Concept} (hh : BuiltFrom P head) (h : BuiltFrom P c) :
    BuiltFrom P (replaceSelf head c) := by
  induction h with
  | @atom word h =>
    unfold Concept.replaceSelf
    split
    · exact hh
    · exact .atom h
  | @compound ps two parts arranged ih =>
    have parts : ∀ p ∈ ps.map (Concept.replaceSelf head), BuiltFrom P p := by
      intro p hp
      obtain ⟨q, hq, rfl⟩ := List.mem_map.mp hp
      exact ih q hq
    obtain ⟨placed, made, -⟩ :=
      ofParts?_eq_compound (ps.map (Concept.replaceSelf head)) (by simpa using two)
    rw [Concept.replaceSelf, replaceSelfAll_eq_map, made]
    exact ofParts? parts made

theorem resolveSelf (parts : ∀ p ∈ ps, BuiltFrom P p) :
    ∀ p ∈ Concept.resolveSelf ps, BuiltFrom P p := by
  cases ps with
  | nil => simp [Concept.resolveSelf]
  | cons head rest =>
    rw [Concept.resolveSelf]
    split
    · rw [replaceSelfAll_eq_map]
      intro p hp
      obtain ⟨q, hq, rfl⟩ := List.mem_map.mp hp
      exact replaceSelf (parts head (by simp)) (parts q (by simp [hq]))
    · exact parts

end BuiltFrom

end Concept

namespace Source

open ConceptSpace.Concept (BuiltFrom)

/-! ## The words of tokens -/

/-- What the text of a token is, as far as the token is a word. -/
def IsTextOf (kind : TokenKind) (word : String) : Prop :=
  match kind with
  | .literal => isWholeLiteral word = true
  | .atom => word.toList ≠ [] ∧ ∀ c ∈ word.toList, Token.isWordChar c = true
  | _ => True

/-- What the text of a token that is a word can be. -/
def IsTokenText (word : String) : Prop :=
  IsTextOf .literal word ∨ IsTextOf .atom word

theorem IsTextOf.isTokenText {kind : TokenKind} {word : String} (h : IsTextOf kind word)
    (isWord : kind = .atom ∨ kind = .literal) : IsTokenText word := by
  rcases isWord with rfl | rfl
  · exact .inr h
  · exact .inl h

/-- A run of word characters that starts like a literal or a comment without being one. -/
def IsUnclosed (word : String) : Prop :=
  isWholeLiteral word = false ∧ (Concept.literalOpening.isPrefixOf word.toList = true ∨
    commentOpening.isPrefixOf word.toList = true)

instance (word : String) : Decidable (IsUnclosed word) :=
  inferInstanceAs (Decidable (_ ∧ _))

theorem IsTextOf.isPlainWord {word : String} (h : IsTextOf .atom word)
    (literal : Concept.literalOpening.isPrefixOf word.toList = false)
    (comment : commentOpening.isPrefixOf word.toList = false) : isPlainWord word = true := by
  obtain ⟨nonempty, chars⟩ := h
  simpa [Source.isPlainWord, isWord, literal, comment, nonempty] using .inr chars

theorem IsTokenText.isToken {word : String} (h : IsTokenText word) (closed : ¬ IsUnclosed word) :
    isToken word = true := by
  cases literal : isWholeLiteral word with
  | true => simp [Source.isToken, literal]
  | false =>
    have text : IsTextOf .atom word := h.resolve_left (by simp [IsTextOf, literal])
    have marks : Concept.literalOpening.isPrefixOf word.toList = false ∧
        commentOpening.isPrefixOf word.toList = false := by
      rw [IsUnclosed, not_and] at closed
      simpa only [not_or, Bool.not_eq_true] using closed literal
    simp [Source.isToken, text.isPlainWord marks.1 marks.2]

namespace Token

theorem Fits.isTextOf {kind : TokenKind} {text rest : List Char} (h : Fits kind text rest) :
    IsTextOf kind (String.ofList text) := by
  cases h with
  | literal enclosed =>
    cases text with
    | nil => exact absurd enclosed.between not_isBetween_nil
    | cons c cs =>
      obtain ⟨rfl, behind⟩ := isEnclosed_cons_iff.mp enclosed
      have found := behind_of_isEnclosed behind []
      rw [List.append_nil] at found
      simp [IsTextOf, isWholeLiteral, literal?_eq, found]
  | atom nonempty wordChars => exact ⟨by simpa using nonempty, by simpa using wordChars⟩
  | _ => trivial

theorem Cuts.isTextOf {offset : Nat} {cs rest : List Char} {tokens : List Token}
    (h : Cuts offset cs tokens rest) : ∀ token ∈ tokens, IsTextOf token.kind token.text := by
  induction h with
  | start => simp
  | next fits _ ih =>
    intro token ht
    rcases List.mem_cons.mp ht with rfl | ht
    · exact fits.isTextOf
    · exact ih token ht

/-- The texts of words are those of their tokens. -/
theorem isTextOf_of_tokenize {source : String} {tokens : List Token}
    (h : tokenize source = .ok tokens) : ∀ token ∈ tokens, IsTextOf token.kind token.text :=
  (tokenize_eq_ok_iff_cuts.mp h).isTextOf

end Token

/-! ## The words of an outline -/

/-- The words of a node have a property. -/
inductive Node.Holds (P : String → Prop) : Node → Prop where
  /-- A word. -/
  | atom {word : String} (h : P word) : Holds P (.atom word)
  /-- A block. -/
  | block {bracket : Bracket} {branches : List Branch}
    (h : ∀ branch ∈ branches, ∀ node ∈ branch, Holds P node) : Holds P (.block bracket branches)

namespace Outline

variable {P : String → Prop}

/-- The words of a block under construction have a property. -/
def Frame.Holds (P : String → Prop) (f : Frame) : Prop :=
  (∀ branch ∈ f.finished, ∀ node ∈ branch, node.Holds P) ∧ ∀ node ∈ f.current, node.Holds P

/-- The words of all open blocks have a property. -/
def Stack.Holds (P : String → Prop) (s : Stack) : Prop :=
  s.top.Holds P ∧ ∀ f ∈ s.outer, f.Holds P

theorem Frame.holds_start (bracket : Bracket) (openedAt : Nat) :
    (Frame.start bracket openedAt).Holds P := by
  simp [Frame.start, Frame.Holds]

theorem Frame.Holds.push {f : Frame} {node : Node} (h : f.Holds P) (hn : node.Holds P) :
    (f.push node).Holds P := by
  refine ⟨h.1, fun n hm => ?_⟩
  rcases List.mem_append.mp hm with hm | hm
  · exact h.2 n hm
  · obtain rfl : n = node := by simpa using hm
    exact hn

theorem Frame.Holds.branches {f : Frame} (h : f.Holds P) :
    ∀ branch ∈ f.branches, ∀ node ∈ branch, node.Holds P := by
  intro branch hb
  unfold Frame.branches at hb
  split at hb
  · exact h.1 branch hb
  · rcases List.mem_append.mp hb with hb | hb
    · exact h.1 branch hb
    · obtain rfl : branch = f.current := by simpa using hb
      exact h.2

theorem Frame.Holds.closeInto {f parent : Frame} (h : f.Holds P) (hp : parent.Holds P) :
    (f.closeInto parent).Holds P := by
  unfold Frame.closeInto
  split
  · exact hp
  · exact hp.push (.block h.branches)

theorem Stack.Holds.step {s next : Stack} {token : Token} (h : s.Holds P)
    (word : token.kind = .atom ∨ token.kind = .literal → P token.text)
    (stepped : s.step token = .ok next) : next.Holds P := by
  unfold Stack.step at stepped
  split at stepped
  case h_1 | h_2 => exact Except.ok.inj stepped ▸ h
  case h_3 | h_4 =>
    obtain rfl := Except.ok.inj stepped
    exact ⟨⟨h.1.branches, by simp [Frame.nextBranch]⟩, h.2⟩
  case h_5 kind =>
    obtain rfl := Except.ok.inj stepped
    exact ⟨h.1.push (.atom (word (.inl kind))), h.2⟩
  case h_6 kind =>
    obtain rfl := Except.ok.inj stepped
    exact ⟨h.1.push (.atom (word (.inr kind))), h.2⟩
  case h_7 =>
    obtain rfl := Except.ok.inj stepped
    refine ⟨Frame.holds_start _ _, fun f hf => ?_⟩
    rcases List.mem_cons.mp hf with rfl | hf
    · exact h.1
    · exact h.2 f hf
  case h_8 =>
    unfold Stack.close at stepped
    split at stepped
    case h_1 => simp at stepped
    case h_2 parent outer around =>
      have outside : parent.Holds P ∧ ∀ f ∈ outer, f.Holds P := by
        simpa [around] using h.2
      split at stepped
      case isFalse => simp at stepped
      case isTrue =>
        obtain rfl := Except.ok.inj stepped
        exact ⟨h.1.closeInto outside.1, outside.2⟩

theorem Stack.Holds.run {s last : Stack} {tokens : List Token} (h : s.Holds P)
    (words : ∀ token ∈ tokens, token.kind = .atom ∨ token.kind = .literal → P token.text)
    (ran : s.run tokens = .ok last) : last.Holds P := by
  induction tokens generalizing s with
  | nil => exact Except.ok.inj ran ▸ h
  | cons token tokens ih =>
    obtain ⟨next, stepped, ran⟩ := Stack.exists_of_run_cons ran
    exact ih (h.step (words token (by simp)) stepped) (fun t ht => words t (by simp [ht])) ran

theorem holds_of_ofTokens {tokens : List Token} {root : Block}
    (words : ∀ token ∈ tokens, token.kind = .atom ∨ token.kind = .literal → P token.text)
    (h : ofTokens tokens = .ok root) :
    ∀ branch ∈ root.branches, ∀ node ∈ branch, node.Holds P := by
  have start : Stack.root.Holds P := ⟨Frame.holds_start _ _, by simp [Stack.root]⟩
  unfold ofTokens at h
  split at h
  case h_1 => simp at h
  case h_2 stack ran =>
    unfold Stack.finish at h
    split at h
    case h_1 =>
      obtain rfl := Except.ok.inj h
      exact (start.run words ran).1.branches
    case h_2 => simp at h

theorem holds_of_outline {source : String} {tokens : List Token} {root : Block}
    (words : ∀ token ∈ tokens, token.kind = .atom ∨ token.kind = .literal → P token.text)
    (h : outline source tokens = .ok root) :
    ∀ branch ∈ root.branches, ∀ node ∈ branch, node.Holds P := by
  rw [outline] at h
  cases laid : ofTokens tokens with
  | error fault => simp [laid, Except.mapError] at h
  | ok found =>
    obtain rfl : found = root := by simpa [laid, Except.mapError] using h
    exact holds_of_ofTokens words laid

end Outline

/-! ## The words of readings -/

section Readings

variable {P : String → Prop}

/-- Every part of every sequence is built from words with a property. -/
def AllBuilt (P : String → Prop) (sequences : List (List Concept)) : Prop :=
  ∀ parts ∈ sequences, ∀ p ∈ parts, BuiltFrom P p

theorem AllBuilt.append {left right : List (List Concept)} (hl : AllBuilt P left)
    (hr : AllBuilt P right) : AllBuilt P (left ++ right) := by
  intro parts hp
  exact (List.mem_append.mp hp).elim (hl parts) (hr parts)

theorem AllBuilt.combine {sequences continuations : List (List Concept)}
    (hs : AllBuilt P sequences) (hc : AllBuilt P continuations) :
    AllBuilt P (Reading.combine sequences continuations) := by
  unfold Reading.combine
  split
  · exact hs
  · split
    · exact hc
    · intro parts hp
      obtain ⟨left, hl, hp⟩ := List.mem_flatMap.mp hp
      obtain ⟨right, hr, rfl⟩ := List.mem_map.mp hp
      intro p hp
      exact (List.mem_append.mp hp).elim (hs left hl p) (hc right hr p)

theorem AllBuilt.tails {sequences : List (List Concept)} (h : AllBuilt P sequences) :
    ∀ p ∈ Reading.tails sequences, BuiltFrom P p := by
  intro p hp
  obtain ⟨parts, hs, last⟩ :=
    List.mem_filterMap.mp ((Sequence.distinctBy_sublist _ _).subset hp)
  exact h parts hs p (List.mem_of_getLast? last)

theorem AllBuilt.ofParts {sequences : List (List Concept)} (h : AllBuilt P sequences) :
    ∀ c ∈ sequences.filterMap Concept.ofParts?, BuiltFrom P c := by
  intro c hc
  obtain ⟨parts, hs, made⟩ := List.mem_filterMap.mp hc
  exact .ofParts? (h parts hs) made

variable {readings : List Reading} (h : AllBuilt P (readings.map (·.parts)))

include h in
theorem allBuilt_continuing : AllBuilt P (Reading.continuing readings) := by
  intro parts hp
  obtain ⟨r, hr, rfl⟩ := List.mem_map.mp hp
  exact h _ (List.mem_map_of_mem (List.mem_filter.mp hr).1)

include h in
theorem allBuilt_asides : AllBuilt P (Reading.asides readings) := by
  intro parts hp
  obtain ⟨r, hr, rfl⟩ := List.mem_map.mp hp
  exact h _ (List.mem_map_of_mem (List.mem_filter.mp hr).1)

include h in
/-- A block states aside only what it is about and what it says. -/
theorem allBuilt_statedAside (bracket : Bracket) {tails : List Concept}
    (ht : ∀ p ∈ tails, BuiltFrom P p) : AllBuilt P (bracket.statedAside tails readings) := by
  cases bracket with
  | inline => exact allBuilt_asides h
  | nested =>
    unfold Bracket.statedAside
    dsimp only
    split
    · exact allBuilt_asides h
    · simp [AllBuilt]
  | parenthetical =>
    refine AllBuilt.append (fun parts hp => ?_) (allBuilt_asides h)
    obtain ⟨right, hr, hp⟩ := List.mem_flatMap.mp hp
    have hr := allBuilt_continuing h right hr
    split at hp
    · obtain rfl : parts = right := by simpa using hp
      exact hr
    · obtain ⟨tail, hm, rfl⟩ := List.mem_map.mp hp
      simpa using And.intro (ht tail hm) hr

include h in
theorem allBuilt_continuations (bracket : Bracket) (tails : List Concept) :
    AllBuilt P (bracket.continuations tails readings) := by
  cases bracket with
  | inline => exact allBuilt_continuing h
  | parenthetical => simp [AllBuilt, Bracket.continuations]
  | nested =>
    intro parts hp
    obtain ⟨c, hc, rfl⟩ := List.mem_map.mp hp
    have kept : AllBuilt P
        (if tails.any (·.isDirective) then Reading.asides readings else []) := by
      split
      · exact allBuilt_asides h
      · simp [AllBuilt]
    simpa using ((allBuilt_continuing h).append kept).ofParts c hc

end Readings

mutual

/-- What a branch says is built from its words. -/
theorem allBuilt_readNodes {P : String → Prop} : (nodes : List Node) →
    (sequences : List (List Concept)) → (∀ node ∈ nodes, node.Holds P) → AllBuilt P sequences →
      AllBuilt P ((readNodes nodes sequences).map (·.parts))
  | [], sequences, _, hs => by
    have same : (readNodes [] sequences).map (·.parts) = sequences := by
      rw [readNodes, List.map_map]
      exact List.map_id sequences
    rwa [same]
  | .atom word :: nodes, sequences, holds, hs => by
    rw [readNodes]
    refine allBuilt_readNodes nodes _ (fun node hn => holds node (by simp [hn])) (hs.combine ?_)
    cases holds (.atom word) (by simp) with
    | atom h => simpa [AllBuilt] using BuiltFrom.atom h
  | .block bracket branches :: nodes, sequences, holds, hs => by
    have inner : AllBuilt P ((readBranches branches).map (·.parts)) := by
      cases holds (.block bracket branches) (by simp) with
      | block h => exact allBuilt_readBranches branches h
    rw [readNodes, List.map_append, List.map_map]
    refine AllBuilt.append ?_ ?_
    · have aside := allBuilt_statedAside inner bracket hs.tails
      simpa [Function.comp_def] using aside
    · exact allBuilt_readNodes nodes _ (fun node hn => holds node (by simp [hn]))
        (hs.combine (allBuilt_continuations inner bracket _))

theorem allBuilt_readBranches {P : String → Prop} : (branches : List (List Node)) →
    (∀ branch ∈ branches, ∀ node ∈ branch, node.Holds P) →
      AllBuilt P ((readBranches branches).map (·.parts))
  | [], _ => by simp [readBranches, AllBuilt]
  | branch :: branches, holds => by
    rw [readBranches, List.map_append]
    exact (allBuilt_readNodes branch [] (holds branch (by simp)) (by simp [AllBuilt])).append
      (allBuilt_readBranches branches fun other ho => holds other (by simp [ho]))

end

/-! ## What texts denote -/

theorem exists_outline_of_denote {passes : List (List Concept → List Concept)} {source : String}
    {cs : List Concept} (h : denote passes source = .ok cs) :
    ∃ tokens root, tokenize source = .ok tokens ∧ outline source tokens = .ok root ∧
      cs = Concept.distinct ((root.readings.map fun reading =>
        passes.foldl (fun parts pass => pass parts) reading.parts).filterMap
          Concept.ofParts?) := by
  cases cut : tokenize source with
  | error e =>
    rw [denote, cut] at h
    cases h
  | ok tokens =>
    cases laid : outline source tokens with
    | error e =>
      rw [denote, cut] at h
      change (outline source tokens >>= _) = _ at h
      rw [laid] at h
      cases h
    | ok root =>
      rw [denote_of_outline cut laid] at h
      exact ⟨tokens, root, rfl, laid, (Except.ok.inj h).symm⟩

/-- Passes that keep a property of the parts keep it one after the other. -/
theorem kept_foldl {P : Concept → Prop} {passes : List (List Concept → List Concept)}
    (keeps : ∀ pass ∈ passes, ∀ parts : List Concept, (∀ p ∈ parts, P p) → ∀ p ∈ pass parts, P p)
    {parts : List Concept} (h : ∀ p ∈ parts, P p) :
    ∀ p ∈ passes.foldl (fun parts pass => pass parts) parts, P p := by
  induction passes generalizing parts with
  | nil => exact h
  | cons pass passes ih =>
    exact ih (fun other ho => keeps other (by simp [ho])) (keeps pass (by simp) parts h)

section Built

variable {P : String → Prop}

/-- What is made of the readings of branches is built from their words. -/
theorem built_of_branches {passes : List (List Concept → List Concept)} {branches : List Branch}
    (holds : ∀ branch ∈ branches, ∀ node ∈ branch, node.Holds P)
    (keeps : ∀ pass ∈ passes, ∀ parts : List Concept, (∀ p ∈ parts, BuiltFrom P p) →
      ∀ p ∈ pass parts, BuiltFrom P p) :
    ∀ c ∈ Concept.distinct (((readBranches branches).map fun reading =>
      passes.foldl (fun parts pass => pass parts) reading.parts).filterMap Concept.ofParts?),
        BuiltFrom P c := by
  have built := allBuilt_readBranches branches holds
  intro c hc
  obtain ⟨parts, hp, made⟩ := List.mem_filterMap.mp ((Sequence.distinctBy_sublist _ _).subset hc)
  obtain ⟨reading, hr, rfl⟩ := List.mem_map.mp hp
  exact .ofParts? (kept_foldl keeps (built _ (List.mem_map_of_mem hr))) made

/-- Concepts that a source text denotes are built from the words of its tokens. -/
theorem built_of_concepts {source : String} {cs : List Concept}
    (words : ∀ tokens, tokenize source = .ok tokens → ∀ token ∈ tokens,
      token.kind = .atom ∨ token.kind = .literal → P token.text)
    (h : concepts source = .ok cs) : ∀ c ∈ cs, BuiltFrom P c := by
  obtain ⟨tokens, root, cut, laid, rfl⟩ := exists_outline_of_denote h
  refine built_of_branches (Outline.holds_of_outline (words tokens cut) laid) ?_
  simpa using fun parts => BuiltFrom.resolveSelf

end Built

/-- A concept that source text denotes is named by its key, unless one of its words starts like a
literal or a comment without being one. -/
theorem ofKey_key_of_conceptsOf {sources : List String} {cs : List Concept}
    (h : conceptsOf sources = .ok cs) {c : Concept} (hc : c ∈ cs)
    (closed : ∀ word ∈ c.words, ¬ IsUnclosed word) : ofKey c.key = .ok c := by
  have built : BuiltFrom IsTokenText c := built_of_concepts (fun _ cut token ht isWord =>
    (Token.isTextOf_of_tokenize cut token ht).isTokenText isWord) h c hc
  have clean : c.Clean := built.clean fun word hw text => text.isToken (closed word hw)
  exact clean.ofKey_key

/-- A set that the source names in another order, with `&` for one of its members. -/
private def resolvedSet : Concept :=
  .compound [.atom ":", .atom "k", .atom "y"]

theorem resolvedSet_key_reads_back : ∃ cs, conceptsOf ["k [: y &]"] = .ok cs ∧
    resolvedSet ∈ cs ∧ ofKey resolvedSet.key = .ok resolvedSet := by
  have read : conceptsOf ["k [: y &]"] = .ok [resolvedSet] :=
    Sequence.eq_ok_of_toOption (by decide +kernel)
  have closed : ∀ word ∈ resolvedSet.words, ¬ IsUnclosed word := by decide +kernel
  exact ⟨_, read, by simp, ofKey_key_of_conceptsOf read (by simp) closed⟩

/-- The members of a set with two words that only in the order of their keys make a comment. -/
private def hiddenComment : Concept :=
  .compound [.atom ":", .atom "/*a", .atom "x*/"]

/-- The key of a concept that was read from source text can name another concept. -/
theorem hiddenComment_key_reads_as_marker : ∃ cs, conceptsOf [": x*/ /*a"] = .ok cs ∧
    hiddenComment ∈ cs ∧ ofKey hiddenComment.key ≠ .ok hiddenComment := by
  have read : conceptsOf [": x*/ /*a"] = .ok [hiddenComment] :=
    Sequence.eq_ok_of_toOption (by decide +kernel)
  have again : ofKey hiddenComment.key = .ok (.atom ":") :=
    Sequence.eq_ok_of_toOption (by decide +kernel)
  refine ⟨_, read, by simp, fun same => ?_⟩
  exact Concept.noConfusion (Except.ok.inj (same.symm.trans again))

end Source

end ConceptSpace
