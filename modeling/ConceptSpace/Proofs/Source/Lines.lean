import Mathlib.Data.List.TakeWhile
import ConceptSpace.Proofs.Concept.Inside
import ConceptSpace.Proofs.Source.Nesting
import ConceptSpace.Proofs.Source.Origin

/-!
# Lines of source text

Several source texts are read as the lines of one. A line end can become one separator with those
around it, and may end an atom, but nothing else reaches over it: what a text does to the open
blocks it also does as a line (`Reads.append_line`), as long as its atoms do not start like a literal
or a comment, which the lines behind it could close. So the texts denote together what they denote
one after the other (`conceptsOf_eq_distinct_flatten`).
-/

namespace ConceptSpace.Source

open Outline (Stack Frame)
open Token (scan first?)

/-! ## Tokens before a line end -/

namespace Token

/-- Not an atom that starts like a literal or a comment, which more text could make one. -/
def IsClosed (t : Token) : Prop :=
  t.kind = .atom → Concept.literalOpening.isPrefixOf t.text.toList = false ∧
    commentOpening.isPrefixOf t.text.toList = false

instance (t : Token) : Decidable t.IsClosed :=
  inferInstanceAs (Decidable (_ → _))

theorem IsDelimited.append_line {rest : List Char} (h : IsDelimited rest) (ds : List Char) :
    IsDelimited (rest ++ '\n' :: ds) := by
  cases rest with
  | nil => exact isDelimited_cons (by decide)
  | cons d rest => exact h

/-- A mark that a run of word characters does not start with does not come about behind it. -/
theorem not_startsBetween_append_line {a b : Char} {closing run rest : List Char}
    (second : isWordChar b = true) (nonempty : run ≠ [])
    (none : [a, b].isPrefixOf run = false) (stops : IsDelimited rest) (ds : List Char) :
    ¬ StartsBetween [a, b] closing (run ++ (rest ++ '\n' :: ds)) := by
  obtain ⟨c, cs, rfl⟩ := List.exists_cons_of_ne_nil nonempty
  have absent := isPrefixOf_append_of_isDelimited second none (stops.append_line ds)
  rintro ⟨start, hs, inner, -, rfl⟩
  have marked : [a, b] <+: c :: (cs ++ (rest ++ '\n' :: ds)) :=
    (List.prefix_append _ _).trans hs
  rw [List.isPrefixOf_iff_prefix.mpr marked] at absent
  cases absent

/-- A line end behind a text does not change its tokens, unless the text ends in separators or has
an atom that more text could close. -/
theorem Fits.append_line {kind : TokenKind} {text rest : List Char} (h : Fits kind text rest)
    (closed : IsClosed ⟨kind, String.ofList text, 0⟩)
    (other : kind = .spaces ∨ kind = .branch → rest ≠ []) (ds : List Char) :
    Fits kind text (rest ++ '\n' :: ds) := by
  cases h with
  | branch separators breaks stops =>
    obtain ⟨d, rest, rfl⟩ := List.exists_cons_of_ne_nil (other (.inr rfl))
    exact .branch separators breaks stops
  | spaces nonempty separators unbroken stops =>
    obtain ⟨d, rest, rfl⟩ := List.exists_cons_of_ne_nil (other (.inl rfl))
    exact .spaces nonempty separators unbroken stops
  | comment enclosed line => exact .comment enclosed line
  | multiLineComment enclosed lines => exact .multiLineComment enclosed lines
  | literal enclosed => exact .literal enclosed
  | opening bracket => exact .opening bracket _
  | closing bracket => exact .closing bracket _
  | atom nonempty wordChars stops noComment noLiteral =>
    obtain ⟨literal, comment⟩ := closed rfl
    rw [String.toList_ofList] at literal comment
    exact .atom nonempty wordChars (IsDelimited.append_line stops ds)
      (not_startsBetween_append_line (by decide) nonempty comment stops ds)
      (not_startsBetween_append_line (by decide) nonempty literal stops ds)

theorem first?_append_line {c : Char} {cs : List Char} {kind : TokenKind} {n : Nat}
    (h : first? c cs = some (kind, n))
    (closed : IsClosed ⟨kind, String.ofList (c :: cs.take n), 0⟩)
    (other : ¬ (isSeparator c = true ∧ ∀ d ∈ cs, isSeparator d = true)) (ds : List Char) :
    n ≤ cs.length ∧ first? c (cs ++ '\n' :: ds) = some (kind, n) := by
  obtain ⟨short, fits⟩ := fits_of_first? h
  refine ⟨short, ?_⟩
  have goesOn : kind = .spaces ∨ kind = .branch → cs.drop n ≠ [] := by
    intro gap last
    have separators := (fits.separators gap).1
    rw [List.take_of_length_le (List.drop_eq_nil_iff.mp last)] at separators
    exact other (List.forall_mem_cons.mp separators)
  obtain ⟨d, run, same, again⟩ := first?_of_fits (fits.append_line closed goesOn ds)
  obtain ⟨rfl, rfl⟩ := List.cons.inj same
  rwa [← List.append_assoc, List.take_append_drop, List.length_take_of_le short] at again

end Token

/-! ## Reading text -/

/-- The tokens of a text, which starts at an offset, lead from open blocks to others. -/
def Reads (offset : Nat) (cs : List Char) (s next : Stack) : Prop :=
  ∃ tokens, scan offset cs = .ok tokens ∧ s.run tokens = .ok next

/-- The innermost block goes on with another branch. -/
def Outline.Stack.nextBranch (s : Stack) : Stack :=
  { s with top := s.top.nextBranch }

theorem Outline.Frame.nextBranch_of_current {f : Frame} (h : f.current = []) : f.nextBranch = f := by
  unfold Frame.nextBranch Frame.branches
  rw [if_pos (List.isEmpty_iff.mpr h), ← h]

theorem Outline.Stack.nextBranch_nextBranch (s : Stack) :
    s.nextBranch.nextBranch = s.nextBranch := by
  unfold Stack.nextBranch
  rw [Frame.nextBranch_of_current rfl]

theorem reads_nil {offset : Nat} {s next : Stack} : Reads offset [] s next ↔ s = next := by
  simp [Reads, scan, Stack.run]

/-- Reading starts with the first token. -/
theorem reads_cons (token : Token) {c : Char} {cs : List Char} {n : Nat}
    (first : first? c cs = some (token.kind, n)) (text : token.text = String.ofList (c :: cs.take n))
    {s next : Stack} : Reads token.start (c :: cs) s next ↔
      ∃ mid, s.step token = .ok mid ∧ Reads token.stop (cs.drop n) mid next := by
  have scanned : scan token.start (c :: cs) =
      (scan token.stop (cs.drop n)).map (token :: ·) := by
    rw [scan]
    simp only [first, ← text]
  unfold Reads
  rw [scanned]
  constructor
  · rintro ⟨tokens, cut, ran⟩
    obtain ⟨more, rest, rfl⟩ := Sequence.exists_of_map_eq_ok cut
    obtain ⟨mid, stepped, ran⟩ := Stack.exists_of_run_cons ran
    exact ⟨mid, stepped, more, rest, ran⟩
  · rintro ⟨mid, stepped, more, rest, ran⟩
    refine ⟨token :: more, ?_, (Stack.run_cons stepped more).trans ran⟩
    rw [rest]
    rfl

/-- Separators are taken in together, as far as they go. -/
theorem reads_separators {c : Char} (hc : Token.isSeparator c = true) {cs : List Char} {offset : Nat}
    {s next : Stack} :
    let run := c :: cs.takeWhile Token.isSeparator
    Reads offset (c :: cs) s next ↔
      Reads (offset + (String.ofList run).utf8ByteSize) (cs.dropWhile Token.isSeparator)
        (if run.any Token.isBreak then s.nextBranch else s) next := by
  intro run
  have taken : cs.take (cs.takeWhile Token.isSeparator).length = cs.takeWhile Token.isSeparator :=
    (List.prefix_iff_eq_take.mp (List.takeWhile_prefix _)).symm
  have left : cs.drop (cs.takeWhile Token.isSeparator).length = cs.dropWhile Token.isSeparator := by
    have split := List.takeWhile_append_dropWhile (p := Token.isSeparator) (l := cs)
    have behind : (cs.takeWhile Token.isSeparator ++ cs.dropWhile Token.isSeparator).drop
        (cs.takeWhile Token.isSeparator).length = cs.dropWhile Token.isSeparator := List.drop_left
    rwa [split] at behind
  let token : Token := ⟨if run.any Token.isBreak then .branch else .spaces, String.ofList run, offset⟩
  have first : first? c cs = some (token.kind, (cs.takeWhile Token.isSeparator).length) := by
    rw [first?, if_pos hc]
  have stepped : s.step token = .ok (if run.any Token.isBreak then s.nextBranch else s) := by
    unfold Stack.step
    cases breaks : run.any Token.isBreak <;> simp [token, breaks, Stack.nextBranch]
  refine (reads_cons token first (by rw [taken])).trans ?_
  rw [left, stepped]
  simp only [Except.ok.injEq, exists_eq_left']
  rfl

/-- Before a new branch, separators can be left out. -/
theorem Reads.skip {offset : Nat} {cs : List Char} {s next : Stack} (h : Reads offset cs s next)
    (fresh : s.nextBranch = s) :
    Reads (offset + (String.ofList (cs.takeWhile Token.isSeparator)).utf8ByteSize)
      (cs.dropWhile Token.isSeparator) s next := by
  cases cs with
  | nil => exact h
  | cons c cs =>
    cases separates : Token.isSeparator c with
    | false => simpa [separates] using h
    | true =>
      have behind := (reads_separators separates).mp h
      rw [fresh, ite_self] at behind
      rwa [List.takeWhile_cons_of_pos separates, List.dropWhile_cons_of_pos separates]

/-- Separators with a line end or a comma among them start a new branch, in front of which nothing
is left out that matters. -/
theorem Reads.after_separators {seps ds : List Char} {s next : Stack}
    (all : ∀ c ∈ seps, Token.isSeparator c = true) (breaks : seps.any Token.isBreak = true)
    (h : ∀ offset, Reads offset ds s.nextBranch next) (offset : Nat) :
    Reads offset (seps ++ ds) s next := by
  cases seps with
  | nil => cases breaks
  | cons c cs =>
    have behind : ∀ d ∈ cs, Token.isSeparator d = true := fun d hd => all d (by simp [hd])
    rw [List.cons_append]
    refine (reads_separators (all c (by simp))).mpr ?_
    rw [List.takeWhile_append_of_pos behind, List.dropWhile_append_of_pos behind,
      ← List.cons_append, List.any_append, breaks, Bool.true_or, if_pos rfl]
    have skipped := (h (offset + (String.ofList (c :: cs)).utf8ByteSize)).skip
      s.nextBranch_nextBranch
    rwa [Nat.add_assoc, ← String.utf8ByteSize_append, ← String.ofList_append] at skipped

/-- Where a text of separators leads to, a new branch starts where it would have started before. -/
theorem Reads.nextBranch_eq {cs : List Char} {offset : Nat} {s mid : Stack}
    (h : Reads offset cs s mid) (all : ∀ c ∈ cs, Token.isSeparator c = true) :
    mid.nextBranch = s.nextBranch := by
  cases cs with
  | nil => rw [reads_nil.mp h]
  | cons c cs =>
    obtain ⟨hc, behind⟩ := List.forall_mem_cons.mp all
    have none : cs.dropWhile Token.isSeparator = [] := List.dropWhile_eq_nil_iff.mpr behind
    have reached := (reads_separators hc).mp h
    rw [none] at reached
    rw [← reads_nil.mp reached]
    split
    · exact s.nextBranch_nextBranch
    · rfl

/-- A line end behind separators belongs to their token. -/
theorem Reads.append_line_of_separators {offset : Nat} {cs ds : List Char} {s mid next : Stack}
    (read : Reads offset cs s mid) (all : ∀ c ∈ cs, Token.isSeparator c = true)
    (h : ∀ offset, Reads offset ds mid.nextBranch next) : Reads offset (cs ++ '\n' :: ds) s next := by
  rw [List.append_cons]
  refine Reads.after_separators ?_ (by simp [Token.isBreak]) (read.nextBranch_eq all ▸ h) offset
  intro c hc
  rcases List.mem_append.mp hc with hc | hc
  · exact all c hc
  · obtain rfl := List.mem_singleton.mp hc
    decide

/-- What a text does to the open blocks it also does as a line in front of others. -/
theorem Reads.append_line {offset : Nat} {cs ds : List Char} {s mid next : Stack}
    {tokens : List Token} (scanned : scan offset cs = .ok tokens) (ran : s.run tokens = .ok mid)
    (closed : ∀ t ∈ tokens, t.IsClosed) (h : ∀ offset, Reads offset ds mid.nextBranch next) :
    Reads offset (cs ++ '\n' :: ds) s next := by
  fun_induction scan offset cs generalizing tokens s with
  | case1 offset =>
    have read : Reads offset [] s mid := by
      obtain rfl := Except.ok.inj scanned
      exact reads_nil.mpr (Except.ok.inj ran)
    exact read.append_line_of_separators (by simp) h
  | case2 => cases scanned
  | case3 offset c cs kind n first token =>
    rename_i ih
    obtain ⟨more, rest, rfl⟩ := Sequence.exists_of_map_eq_ok scanned
    obtain ⟨after, stepped, ran⟩ := Stack.exists_of_run_cons ran
    by_cases separators : Token.isSeparator c = true ∧ ∀ d ∈ cs, Token.isSeparator d = true
    · have read : Reads offset (c :: cs) s mid :=
        (reads_cons token first rfl).mpr ⟨after, stepped, more, rest, ran⟩
      exact read.append_line_of_separators (List.forall_mem_cons.mpr separators) h
    · obtain ⟨short, again⟩ :=
        Token.first?_append_line first (closed token (by simp)) separators ds
      rw [List.cons_append]
      refine (reads_cons token again ?_).mpr ⟨after, stepped, ?_⟩
      · rw [List.take_append_of_le_length short]
      · rw [List.drop_append_of_le_length short]
        exact ih rest ran fun t ht => closed t (by simp [ht])

/-! ## Text at another place -/

/-- The token as it is if the text starts `distance` bytes later. -/
def Token.moved (distance : Nat) (t : Token) : Token :=
  { t with start := distance + t.start }

theorem Token.map_moved_zero (tokens : List Token) : tokens.map (.moved 0) = tokens := by
  refine List.map_id'' (fun t => ?_) tokens
  rw [Token.moved, Nat.zero_add]

theorem Token.scan_moved {distance offset : Nat} {cs : List Char} {tokens : List Token}
    (h : scan offset cs = .ok tokens) :
    scan (distance + offset) cs = .ok (tokens.map (.moved distance)) := by
  fun_induction scan offset cs generalizing tokens with
  | case1 =>
    obtain rfl := Except.ok.inj h
    rw [scan]
    rfl
  | case2 => cases h
  | case3 offset c cs kind n first token =>
    rename_i ih
    obtain ⟨more, rest, rfl⟩ := Sequence.exists_of_map_eq_ok h
    have moved := ih rest
    rw [scan]
    simp only [first]
    rw [Token.stop, Nat.add_assoc]
    change (scan (distance + token.stop) _).map _ = _
    rw [moved]
    rfl

namespace Outline

/-- The block with more branches finished, and another one under construction. -/
def Frame.goOn (f : Frame) (finished : List Branch) (current : Branch) : Frame :=
  { f with finished := f.finished ++ finished, current := current }

theorem Frame.branches_goOn (f : Frame) (finished : List Branch) (current : Branch) :
    (f.goOn finished current).branches =
      f.finished ++ ((Frame.start .inline 0).goOn finished current).branches := by
  unfold Frame.branches Frame.goOn
  dsimp only [Frame.start]
  split <;> simp

theorem Frame.closeInto_goOn (f parent : Frame) (finished : List Branch) (current : Branch) :
    (f.closeInto parent).goOn finished current = parent.goOn finished current := by
  unfold Frame.closeInto
  split <;> rfl

theorem Frame.current_closeInto (f parent : Frame) : (f.closeInto parent).current =
    if f.branches.isEmpty then parent.current
    else parent.current ++ [.block f.bracket f.branches] := by
  unfold Frame.closeInto
  split <;> rfl

namespace Stack

/-- What a token that is no bracket adds to a block depends only on the current branch. -/
theorem exists_step_moved {t : Token} (plain : t.isBracket = false) (current : Branch) :
    ∃ finished rest, ∀ (distance : Nat) (s : Stack), s.top.current = current →
      s.step (t.moved distance) = .ok ⟨s.top.goOn finished rest, s.outer⟩ := by
  have kinds : (t.kind = .spaces ∨ t.kind = .comment) ∨
      (t.kind = .branch ∨ t.kind = .multiLineComment) ∨ t.kind = .atom ∨ t.kind = .literal := by
    unfold Token.isBracket at plain
    cases kind : t.kind <;> simp [kind] at plain ⊢
  rcases kinds with blank | breaks | word
  · refine ⟨[], current, fun distance s same => ?_⟩
    rcases blank with kind | kind <;> simp [step, Token.moved, kind, Frame.goOn, ← same]
  · refine ⟨if current.isEmpty then [] else [current], [], fun distance s same => ?_⟩
    have next : s.step (t.moved distance) = .ok { s with top := s.top.nextBranch } := by
      rcases breaks with kind | kind <;> simp [step, Token.moved, kind]
    rw [next]
    unfold Frame.nextBranch Frame.branches Frame.goOn
    rw [same]
    split <;> simp
  · refine ⟨[], current ++ [.atom t.text], fun distance s same => ?_⟩
    rcases word with kind | kind <;>
      simp [step, Token.moved, kind, Frame.push, Frame.goOn, ← same]

/-- Nested tokens add the same to a block whatever else is in it, and wherever they stand. -/
theorem exists_run_moved {tokens : List Token} (h : IsNested tokens) (current : Branch) :
    ∃ finished rest, ∀ (distance : Nat) (s : Stack), s.top.current = current →
      s.run (tokens.map (.moved distance)) = .ok ⟨s.top.goOn finished rest, s.outer⟩ := by
  induction h generalizing current with
  | nil =>
    refine ⟨[], current, fun distance s same => ?_⟩
    rw [Frame.goOn, List.append_nil, ← same]
    rfl
  | other plain _ ih =>
    obtain ⟨finished, rest, stepped⟩ := exists_step_moved plain current
    obtain ⟨more, last, ran⟩ := ih rest
    refine ⟨finished ++ more, last, fun distance s same => ?_⟩
    rw [List.map_cons, run_cons (stepped distance s same), ran distance _ rfl]
    simp only [Frame.goOn, List.append_assoc]
  | @block o c b inner rest opens closes _ _ ihInner ihRest =>
    obtain ⟨finished, last, filled⟩ := ihInner []
    -- Where the block was opened is forgotten when it is closed.
    let block (openedAt : Nat) : Frame := (Frame.start b openedAt).goOn finished last
    obtain ⟨more, last', ran⟩ := ihRest (if (block 0).branches.isEmpty then current
      else current ++ [.block b (block 0).branches])
    refine ⟨more, last', fun distance s same => ?_⟩
    let openedAt := (o.moved distance).start
    have opened : s.step (o.moved distance) = .ok ⟨.start b openedAt, s.top :: s.outer⟩ := by
      simp only [step, Token.moved, opens]
      rfl
    have closed : step ⟨block openedAt, s.top :: s.outer⟩ (c.moved distance) =
        .ok ⟨(block openedAt).closeInto s.top, s.outer⟩ := by
      simp only [step, Token.moved, closes, close]
      exact if_pos rfl
    have behind := ran distance ⟨(block openedAt).closeInto s.top, s.outer⟩
      (same ▸ Frame.current_closeInto (block openedAt) s.top)
    rw [List.map_cons, List.map_append, List.map_cons, run_cons opened, run_append,
      filled distance _ rfl, Sequence.ok_bind]
    refine (run_cons closed _).trans ?_
    rw [behind, Frame.closeInto_goOn]

end Stack

end Outline

/-! ## Several lines -/

/-- A text that lays out branches behind those that a block has, wherever it starts. -/
def Lays (cs : List Char) (branches : List Branch) : Prop :=
  ∀ s : Stack, s.top.current = [] → ∃ top, top.bracket = s.top.bracket ∧
    top.branches = s.top.finished ++ branches ∧ ∀ offset, Reads offset cs s ⟨top, s.outer⟩

theorem lays_nil : Lays [] [] := by
  intro s fresh
  refine ⟨s.top, rfl, ?_, fun offset => reads_nil.mpr rfl⟩
  rw [Frame.branches, fresh, List.append_nil]
  rfl

section Line

variable {cs : List Char} {tokens : List Token} {root : Block}

/-- Tokens with an outline add its branches to any block. -/
theorem exists_run_of_laid (scanned : scan 0 cs = .ok tokens)
    (laid : Outline.ofTokens tokens = .ok root) {s : Stack} (fresh : s.top.current = []) :
    ∃ top, top.bracket = s.top.bracket ∧ top.branches = s.top.finished ++ root.branches ∧
      ∀ offset, scan offset cs = .ok (tokens.map (.moved offset)) ∧
        s.run (tokens.map (.moved offset)) = .ok ⟨top, s.outer⟩ := by
  obtain ⟨finished, rest, ran⟩ :=
    Stack.exists_run_moved (Outline.isNested_of_ofTokens laid) []
  have alone : root.branches = ((Frame.start .inline 0).goOn finished rest).branches := by
    have read := ran 0 .root rfl
    rw [Token.map_moved_zero] at read
    rw [Outline.ofTokens, read] at laid
    exact congrArg Block.branches (Except.ok.inj laid).symm
  refine ⟨s.top.goOn finished rest, rfl, ?_, fun offset => ?_⟩
  · rw [Frame.branches_goOn, alone]
  · exact ⟨Token.scan_moved scanned, ran offset s fresh⟩

theorem lays_of_ofTokens (scanned : scan 0 cs = .ok tokens)
    (laid : Outline.ofTokens tokens = .ok root) : Lays cs root.branches := by
  intro s fresh
  obtain ⟨top, bracket, branches, ran⟩ := exists_run_of_laid scanned laid fresh
  exact ⟨top, bracket, branches, fun offset => ⟨_, ran offset⟩⟩

/-- A line in front of others adds its branches in front of theirs. -/
theorem Lays.cons_line {ds : List Char} {more : List Branch} (h : Lays ds more)
    (scanned : scan 0 cs = .ok tokens) (closed : ∀ t ∈ tokens, t.IsClosed)
    (laid : Outline.ofTokens tokens = .ok root) :
    Lays (cs ++ '\n' :: ds) (root.branches ++ more) := by
  intro s fresh
  obtain ⟨line, bracket, branches, ran⟩ := exists_run_of_laid scanned laid fresh
  obtain ⟨top, same, behind, read⟩ := h (Stack.nextBranch ⟨line, s.outer⟩) rfl
  refine ⟨top, same.trans bracket, ?_, fun offset => ?_⟩
  · rw [behind, ← List.append_assoc, ← branches]
    rfl
  · obtain ⟨cut, ran⟩ := ran offset
    refine Reads.append_line cut ran (fun t ht => ?_) read
    obtain ⟨t, hm, rfl⟩ := List.mem_map.mp ht
    exact closed t hm

end Line

/-! ## Main statement -/

/-- The concepts of branches, one branch after the other, with repetitions. -/
def conceptsOfBranches (branches : List Branch) : List Concept :=
  (readBranches branches).filterMap fun reading =>
    Concept.ofParts? (Concept.resolveSelf reading.parts)

theorem conceptsOfBranches_append (branches more : List Branch) :
    conceptsOfBranches (branches ++ more) =
      conceptsOfBranches branches ++ conceptsOfBranches more := by
  have read : readBranches (branches ++ more) = readBranches branches ++ readBranches more := by
    induction branches with
    | nil => rw [List.nil_append, readBranches, List.nil_append]
    | cons branch branches ih =>
      rw [List.cons_append, readBranches, readBranches, ih, List.append_assoc]
  rw [conceptsOfBranches, read, List.filterMap_append]
  rfl

theorem exists_laid_of_concepts {source : String} {cs : List Concept}
    (h : concepts source = .ok cs) : ∃ tokens root, tokenize source = .ok tokens ∧
      Outline.ofTokens tokens = .ok root ∧
        cs = Concept.distinct (conceptsOfBranches root.branches) := by
  obtain ⟨tokens, root, cut, laid, rfl⟩ := exists_outline_of_denote h
  refine ⟨tokens, root, cut, outline_eq_ok_iff.mp laid, ?_⟩
  rw [List.filterMap_map]
  rfl

theorem concepts_of_lays {source : String} {branches : List Branch}
    (h : Lays source.toList branches) :
    concepts source = .ok (Concept.distinct (conceptsOfBranches branches)) := by
  obtain ⟨top, bracket, laid, read⟩ := h .root rfl
  obtain ⟨tokens, scanned, ran⟩ := read 0
  have laid : Outline.ofTokens tokens = .ok ⟨.inline, branches⟩ := by
    rw [Outline.ofTokens, ran]
    exact congrArg Except.ok (congrArg₂ Block.mk bracket laid)
  have denoted := denote_of_outline (tokenize_eq_ok_iff.mpr scanned) (outline_eq_ok_iff.mpr laid)
    [Concept.resolveSelf]
  rwa [List.filterMap_map] at denoted

/-- No atom of the text starts like a literal or a comment. -/
def HasClosedAtoms (source : String) : Prop :=
  ∀ tokens, tokenize source = .ok tokens → ∀ token ∈ tokens, token.IsClosed

instance (source : String) : Decidable (HasClosedAtoms source) :=
  match cut : tokenize source with
  | .error _ => .isTrue fun _ cut' => nomatch cut.symm.trans cut'
  | .ok tokens => decidable_of_iff (∀ token ∈ tokens, token.IsClosed)
      ⟨fun h _ cut' => Except.ok.inj (cut.symm.trans cut') ▸ h, fun h => h tokens cut⟩

section Lines

variable {sources : List String} {found : List (List Concept)}

/-- Lines that each can be read lay out branches that make the concepts of all lines. -/
theorem exists_lays_of_lines
    (each : List.Forall₂ (fun source cs => conceptsOf [source] = .ok cs) sources found)
    (closed : ∀ source ∈ sources, HasClosedAtoms source) :
    ∃ branches, Lays ("\n".intercalate sources).toList branches ∧
      Concept.distinct (conceptsOfBranches branches) = Concept.distinct found.flatten := by
  induction each with
  | nil =>
    refine ⟨[], lays_nil, ?_⟩
    rw [conceptsOfBranches, readBranches]
    rfl
  | @cons source cs sources found denoted rest ih =>
    rw [conceptsOf_singleton] at denoted
    obtain ⟨tokens, root, cut, laid, rfl⟩ := exists_laid_of_concepts denoted
    have scanned := tokenize_eq_ok_iff.mp cut
    obtain ⟨isClosed, others⟩ := List.forall_mem_cons.mp closed
    obtain ⟨more, lays, same⟩ := ih others
    have first : Concept.distinct (conceptsOfBranches root.branches) =
        Concept.distinct (Concept.distinct (conceptsOfBranches root.branches)) :=
      (Concept.distinct_eq_self (Sequence.nodup_keys_distinctBy _ _)).symm
    rw [List.flatten_cons]
    cases rest with
    | nil =>
      refine ⟨root.branches, ?_, ?_⟩
      · rw [String.intercalate_singleton]
        exact lays_of_ofTokens scanned laid
      · rwa [List.flatten_nil, List.append_nil]
    | cons =>
      refine ⟨root.branches ++ more, ?_, ?_⟩
      · rw [String.toList_intercalate, List.map_cons, List.map_cons, List.intercalate_cons_cons,
          List.append_assoc]
        rw [String.toList_intercalate, List.map_cons] at lays
        exact lays.cons_line scanned (isClosed tokens cut) laid
      · rw [conceptsOfBranches_append]
        exact Sequence.distinctBy_append_congr first same

/-- Source texts of which each can be read can be read together, and denote what they denote one
after the other. Their atoms must not start like a literal or a comment, which the lines behind
could close. -/
theorem conceptsOf_eq_distinct_flatten
    (each : List.Forall₂ (fun source cs => conceptsOf [source] = .ok cs) sources found)
    (closed : ∀ source ∈ sources, HasClosedAtoms source) :
    conceptsOf sources = .ok (Concept.distinct found.flatten) := by
  obtain ⟨branches, lays, same⟩ := exists_lays_of_lines each closed
  rw [conceptsOf, concepts_of_lays lays, same]

end Lines

/-- Lines with separators at their ends, and one with a comment only. -/
theorem separatedLines_denote : conceptsOf ["a \x7bb, c\x7d, ", "/* a b */", " , a b, d"] =
    .ok [.compound [.atom "a", .atom "b"], .compound [.atom "a", .atom "c"], .atom "d"] := by
  have first : conceptsOf ["a \x7bb, c\x7d, "] =
      .ok [.compound [.atom "a", .atom "b"], .compound [.atom "a", .atom "c"]] := by
    decide +kernel
  have second : conceptsOf ["/* a b */"] = .ok [] := by decide +kernel
  have third : conceptsOf [" , a b, d"] = .ok [.compound [.atom "a", .atom "b"], .atom "d"] := by
    decide +kernel
  exact conceptsOf_eq_distinct_flatten (.cons first (.cons second (.cons third .nil)))
    (by decide +kernel)

end ConceptSpace.Source
