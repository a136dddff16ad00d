import Mathlib.Data.List.TakeWhile
import ConceptSpace.Proofs.Source.Words

/-!
# The rules for tokens

The six rules for tokens, said without the functions that apply them: a run of separators or of word
characters is the longest one, a comment or literal ends at its first closing mark, and an atom
starts neither of these. What is taken off a text is what fits a rule (`fits_of_first?`,
`first?_of_fits`), and white space other than the separators is the only thing that no rule fits
(`first?_eq_none_iff`).
-/

namespace ConceptSpace.Source

/-- The mark behind a comment. -/
def commentClosing : List Char := ['*', '/']

/-! ## Text between marks -/

/-- Text between two marks, with at least one character inside. -/
def IsBetween (opening closing text : List Char) : Prop :=
  ∃ inner, inner ≠ [] ∧ text = opening ++ (inner ++ closing)

/-- Text that gets between two marks at its end, and not before. -/
structure IsEnclosed (opening closing text : List Char) : Prop where
  between : IsBetween opening closing text
  first : ∀ start, start <+: text → IsBetween opening closing start → start = text

/-- Text that starts with text between two marks. -/
def StartsBetween (opening closing cs : List Char) : Prop :=
  ∃ start, start <+: cs ∧ IsBetween opening closing start

section Marks

variable {x c : Char} {opening closing cs : List Char}

theorem isBetween_cons_iff :
    IsBetween (x :: opening) closing (c :: cs) ↔ c = x ∧ IsBetween opening closing cs := by
  constructor
  · rintro ⟨inner, nonempty, e⟩
    obtain ⟨rfl, rfl⟩ := List.cons.inj e
    exact ⟨rfl, inner, nonempty, rfl⟩
  · rintro ⟨rfl, inner, nonempty, rfl⟩
    exact ⟨inner, nonempty, rfl⟩

theorem not_isBetween_nil : ¬ IsBetween opening closing [] := by
  rintro ⟨inner, nonempty, e⟩
  simp [nonempty] at e

theorem isEnclosed_cons_iff :
    IsEnclosed (x :: opening) closing (c :: cs) ↔ c = x ∧ IsEnclosed opening closing cs := by
  constructor
  · intro h
    obtain ⟨rfl, between⟩ := isBetween_cons_iff.mp h.between
    refine ⟨rfl, between, fun start hs hb => ?_⟩
    have same := h.first (c :: start) (List.cons_prefix_cons.mpr ⟨rfl, hs⟩)
      (isBetween_cons_iff.mpr ⟨rfl, hb⟩)
    exact (List.cons.inj same).2
  · rintro ⟨rfl, h⟩
    refine ⟨isBetween_cons_iff.mpr ⟨rfl, h.between⟩, fun start hs hb => ?_⟩
    cases start with
    | nil => exact absurd hb not_isBetween_nil
    | cons d start =>
      obtain ⟨rfl, inside⟩ := List.cons_prefix_cons.mp hs
      rw [h.first start inside (isBetween_cons_iff.mp hb).2]

theorem startsBetween_cons_iff :
    StartsBetween (x :: opening) closing (c :: cs) ↔ c = x ∧ StartsBetween opening closing cs := by
  constructor
  · rintro ⟨start, hs, hb⟩
    cases start with
    | nil => exact absurd hb not_isBetween_nil
    | cons d start =>
      obtain ⟨rfl, inside⟩ := List.cons_prefix_cons.mp hs
      obtain ⟨rfl, between⟩ := isBetween_cons_iff.mp hb
      exact ⟨rfl, start, inside, between⟩
  · rintro ⟨rfl, start, hs, hb⟩
    exact ⟨c :: start, List.cons_prefix_cons.mpr ⟨rfl, hs⟩, isBetween_cons_iff.mpr ⟨rfl, hb⟩⟩

theorem not_startsBetween_nil : ¬ StartsBetween opening closing [] := by
  rintro ⟨start, hs, hb⟩
  rw [List.prefix_nil.mp hs] at hb
  exact not_isBetween_nil hb

theorem IsEnclosed.startsBetween (h : IsEnclosed opening closing cs) (rest : List Char) :
    StartsBetween opening closing (cs ++ rest) :=
  ⟨cs, List.prefix_append cs rest, h.between⟩

end Marks

namespace Token

variable {x a b c : Char} {cs : List Char} {kind : TokenKind} {n : Nat}

/-! ## Closing marks -/

theorem through_eq_none_iff : through a b cs = none ↔ ∀ before, ¬ before ++ [a, b] <+: cs := by
  induction cs with
  | nil => simp [through]
  | cons c cs ih =>
    cases cs with
    | nil =>
      refine iff_of_true rfl fun before h => ?_
      have short := h.length_le
      simp at short
    | cons d cs =>
      rw [through]
      by_cases h : c = a ∧ d = b
      · rw [if_pos h]
        refine iff_of_false (by simp) fun none => none [] ?_
        simp [h]
      · rw [if_neg h, Option.map_eq_none_iff, ih]
        constructor
        · intro none before hb
          cases before with
          | nil =>
            obtain ⟨rfl, rfl⟩ : a = c ∧ b = d := by simpa using hb
            exact h ⟨rfl, rfl⟩
          | cons e before => exact none before (List.cons_prefix_cons.mp hb).2
        · intro none before hb
          exact none (c :: before) (List.cons_prefix_cons.mpr ⟨rfl, hb⟩)

/-- The end that is found is that of the first closing mark. -/
theorem exists_of_through (h : through a b cs = some n) : ∃ before, before ++ [a, b] <+: cs ∧
    before.length + 2 = n ∧ ∀ other, other ++ [a, b] <+: cs → before.length ≤ other.length := by
  induction cs generalizing n with
  | nil => simp [through] at h
  | cons c cs ih =>
    cases cs with
    | nil => simp [through] at h
    | cons d cs =>
      rw [through] at h
      by_cases hcd : c = a ∧ d = b
      · rw [if_pos hcd] at h
        exact ⟨[], by simp [hcd], Option.some.inj h, by simp⟩
      · rw [if_neg hcd] at h
        obtain ⟨m, found, rfl⟩ := Option.map_eq_some_iff.mp h
        obtain ⟨before, hb, rfl, first⟩ := ih found
        refine ⟨c :: before, List.cons_prefix_cons.mpr ⟨rfl, hb⟩, rfl, fun other ho => ?_⟩
        cases other with
        | nil =>
          obtain ⟨rfl, rfl⟩ : a = c ∧ b = d := by simpa using ho
          exact absurd ⟨rfl, rfl⟩ hcd
        | cons e other =>
          have shorter := first other (List.cons_prefix_cons.mp ho).2
          simpa using shorter

/-- Behind an opening mark, the text through the first closing mark is found. -/
theorem isEnclosed_of_body (h : body a b cs = some n) :
    n ≤ cs.length ∧ IsEnclosed [] [a, b] (cs.take n) := by
  cases cs with
  | nil => simp [body] at h
  | cons c cs =>
    obtain ⟨m, found, rfl⟩ := Option.map_eq_some_iff.mp h
    obtain ⟨before, hb, rfl, first⟩ := exists_of_through found
    have taken : cs.take (before.length + 2) = before ++ [a, b] := by
      simpa using (List.prefix_iff_eq_take.mp hb).symm
    rw [List.take_succ_cons, taken]
    refine ⟨by simpa using hb.length_le, ⟨c :: before, by simp, rfl⟩, fun start hs ht => ?_⟩
    obtain ⟨inner, nonempty, rfl⟩ := ht
    obtain ⟨d, other, rfl⟩ := List.exists_cons_of_ne_nil nonempty
    have behind : other ++ [a, b] <+: before ++ [a, b] := (List.cons_prefix_cons.mp hs).2
    have le := first other (behind.trans hb)
    exact hs.eq_of_length_le (by simpa using le)

theorem body_eq_none_iff : body a b cs = none ↔ ¬ StartsBetween [] [a, b] cs := by
  cases cs with
  | nil => exact iff_of_true rfl not_startsBetween_nil
  | cons c cs =>
    rw [body, Option.map_eq_none_iff, through_eq_none_iff]
    constructor
    · rintro none ⟨start, hs, inner, nonempty, rfl⟩
      obtain ⟨d, before, rfl⟩ := List.exists_cons_of_ne_nil nonempty
      exact none before (List.cons_prefix_cons.mp hs).2
    · intro none before hb
      exact none ⟨c :: (before ++ [a, b]), List.cons_prefix_cons.mpr ⟨rfl, hb⟩, c :: before,
        by simp, rfl⟩

/-- An enclosed text at the start is the one that is found. -/
theorem body_of_isEnclosed (h : IsEnclosed [] [a, b] cs) (rest : List Char) :
    body a b (cs ++ rest) = some cs.length := by
  cases found : body a b (cs ++ rest) with
  | none => exact absurd (h.startsBetween rest) (body_eq_none_iff.mp found)
  | some n =>
    obtain ⟨short, enclosed⟩ := isEnclosed_of_body found
    have start : (cs ++ rest).take n <+: cs ++ rest := List.take_prefix _ _
    -- Of two texts that the same text starts with, the shorter one starts the longer one.
    have same : (cs ++ rest).take n = cs := by
      rcases List.prefix_or_prefix_of_prefix start (List.prefix_append cs rest) with le | ge
      · exact h.first _ le enclosed.between
      · exact (enclosed.first _ ge h.between).symm
    rw [← congrArg List.length same, List.length_take_of_le short]

/-! ## Comments and literals -/

/-- For text behind the first character of an opening mark: the number of characters through the
closing mark, if the second one follows. -/
def behind (x a b : Char) : List Char → Option Nat
  | [] => none
  | c :: cs => if c = x then (body a b cs).map (· + 1) else none

theorem isEnclosed_of_behind (h : behind x a b cs = some n) :
    n ≤ cs.length ∧ IsEnclosed [x] [a, b] (cs.take n) := by
  cases cs with
  | nil => simp [behind] at h
  | cons c cs =>
    rw [behind] at h
    split at h
    case isFalse => simp at h
    case isTrue same =>
      obtain ⟨m, found, rfl⟩ := Option.map_eq_some_iff.mp h
      obtain ⟨short, enclosed⟩ := isEnclosed_of_body found
      exact ⟨by simpa using short, isEnclosed_cons_iff.mpr ⟨same, enclosed⟩⟩

theorem behind_of_isEnclosed (h : IsEnclosed [x] [a, b] cs) (rest : List Char) :
    behind x a b (cs ++ rest) = some cs.length := by
  cases cs with
  | nil => exact absurd h.between not_isBetween_nil
  | cons c cs =>
    obtain ⟨rfl, enclosed⟩ := isEnclosed_cons_iff.mp h
    simp [behind, body_of_isEnclosed enclosed rest]

theorem behind_eq_none_iff : behind x a b cs = none ↔ ¬ StartsBetween [x] [a, b] cs := by
  cases cs with
  | nil => exact iff_of_true rfl not_startsBetween_nil
  | cons c cs =>
    rw [behind, startsBetween_cons_iff]
    split
    case isTrue same => simp [same, body_eq_none_iff]
    case isFalse other => simp [other]

theorem comment?_eq (cs : List Char) : comment? cs = (behind '*' '*' '/' cs).map fun n =>
    (if '\n' ∈ cs.take n then .multiLineComment else .comment, n) := by
  unfold comment? behind
  split
  case h_1 cs => simp [Function.comp_def]
  case h_2 other =>
    cases cs with
    | nil => rfl
    | cons c cs =>
      have differs : c ≠ '*' := fun same => other cs (by rw [same])
      simp [differs]

theorem literal?_eq (cs : List Char) :
    literal? cs = (behind '<' '>' '>' cs).map fun n => (.literal, n) := by
  unfold literal? behind
  split
  case h_1 cs => simp [Function.comp_def]
  case h_2 other =>
    cases cs with
    | nil => rfl
    | cons c cs =>
      have differs : c ≠ '<' := fun same => other cs (by rw [same])
      simp [differs]

theorem enclosed?_eq_none_iff : enclosed? c cs = none ↔
    ¬ StartsBetween commentOpening commentClosing (c :: cs) ∧
      ¬ StartsBetween Concept.literalOpening Concept.literalClosing (c :: cs) := by
  rw [commentOpening, Concept.literalOpening, startsBetween_cons_iff, startsBetween_cons_iff,
    commentClosing, Concept.literalClosing, enclosed?, comment?_eq, literal?_eq]
  by_cases slash : c = '/'
  · simp [slash, behind_eq_none_iff]
  · by_cases angle : c = '<'
    · simp [angle, behind_eq_none_iff]
    · simp [slash, angle]

/-! ## The rules for tokens -/

/-- The rule for a kind of token takes the first text off, if the second one follows. -/
inductive Fits : TokenKind → List Char → List Char → Prop where
  /-- The longest run of separators, with a comma or a line end among them. -/
  | branch {run rest : List Char} (separators : ∀ c ∈ run, isSeparator c = true)
    (breaks : ∃ c ∈ run, isBreak c = true) (stops : ∀ c ∈ rest.head?, isSeparator c = false) :
    Fits .branch run rest
  /-- The longest run of separators, with no comma and no line end among them. -/
  | spaces {run rest : List Char} (nonempty : run ≠ [])
    (separators : ∀ c ∈ run, isSeparator c = true) (unbroken : ∀ c ∈ run, isBreak c = false)
    (stops : ∀ c ∈ rest.head?, isSeparator c = false) : Fits .spaces run rest
  /-- A comment up to its first closing mark, within a line. -/
  | comment {text rest : List Char} (enclosed : IsEnclosed commentOpening commentClosing text)
    (line : '\n' ∉ text) : Fits .comment text rest
  /-- A comment up to its first closing mark, over several lines. -/
  | multiLineComment {text rest : List Char}
    (enclosed : IsEnclosed commentOpening commentClosing text) (lines : '\n' ∈ text) :
    Fits .multiLineComment text rest
  /-- A literal up to its first closing mark. -/
  | literal {text rest : List Char}
    (enclosed : IsEnclosed Concept.literalOpening Concept.literalClosing text) :
    Fits .literal text rest
  /-- An opening bracket. -/
  | opening (bracket : Bracket) (rest : List Char) : Fits (.opening bracket) [bracket.opening] rest
  /-- A closing bracket. -/
  | closing (bracket : Bracket) (rest : List Char) : Fits (.closing bracket) [bracket.closing] rest
  /-- The longest run of word characters, where neither a comment nor a literal starts. -/
  | atom {run rest : List Char} (nonempty : run ≠ [])
    (wordChars : ∀ c ∈ run, isWordChar c = true) (stops : ∀ c ∈ rest.head?, isWordChar c = false)
    (noComment : ¬ StartsBetween commentOpening commentClosing (run ++ rest))
    (noLiteral : ¬ StartsBetween Concept.literalOpening Concept.literalClosing (run ++ rest)) :
    Fits .atom run rest

theorem takeWhile_append_eq_iff {p : Char → Bool} {run rest : List Char} :
    (run ++ rest).takeWhile p = run ↔
      (∀ c ∈ run, p c = true) ∧ ∀ c ∈ rest.head?, p c = false := by
  induction run with
  | nil =>
    cases rest with
    | nil => simp
    | cons d rest => cases hd : p d <;> simp [hd]
  | cons d run ih => cases hd : p d <;> simp [hd, ih]

/-- A longest run splits a text. -/
theorem split_takeWhile (p : Char → Bool) (cs : List Char) : ∃ run rest, cs = run ++ rest ∧
    cs.takeWhile p = run ∧ (∀ c ∈ run, p c = true) ∧ ∀ c ∈ rest.head?, p c = false := by
  have split := (List.takeWhile_append_dropWhile (p := p) (l := cs)).symm
  have run := congrArg (List.takeWhile p) split.symm
  exact ⟨_, _, split, rfl, takeWhile_append_eq_iff.mp run⟩

theorem bracket?_opening (bracket : Bracket) : bracket? bracket.opening = some (.opening bracket) := by
  cases bracket <;> rfl

theorem bracket?_closing (bracket : Bracket) : bracket? bracket.closing = some (.closing bracket) := by
  cases bracket <;> rfl

theorem fits_of_bracket? (h : bracket? c = some kind) (rest : List Char) : Fits kind [c] rest := by
  unfold bracket? at h
  split at h <;> cases h
  · exact .opening .inline rest
  · exact .opening .nested rest
  · exact .opening .parenthetical rest
  · exact .closing .inline rest
  · exact .closing .nested rest
  · exact .closing .parenthetical rest

/-- What a comment or literal takes off fits its rule. -/
theorem fits_of_enclosed? (h : enclosed? c cs = some (kind, n)) :
    n ≤ cs.length ∧ Fits kind (c :: cs.take n) (cs.drop n) := by
  unfold enclosed? at h
  split at h
  case isTrue slash =>
    rw [comment?_eq] at h
    obtain ⟨m, found, same⟩ := Option.map_eq_some_iff.mp h
    obtain ⟨rfl, rfl⟩ := Prod.mk.inj same
    obtain ⟨short, enclosed⟩ := isEnclosed_of_behind found
    have comment : IsEnclosed commentOpening commentClosing (c :: cs.take m) :=
      isEnclosed_cons_iff.mpr ⟨slash, enclosed⟩
    have line : '\n' ∈ c :: cs.take m ↔ '\n' ∈ cs.take m := by simp [slash]
    refine ⟨short, ?_⟩
    split
    case isTrue lines => exact .multiLineComment comment (line.mpr lines)
    case isFalse oneLine => exact .comment comment (mt line.mp oneLine)
  case isFalse =>
    split at h
    case isFalse => cases h
    case isTrue angle =>
      rw [literal?_eq] at h
      obtain ⟨m, found, same⟩ := Option.map_eq_some_iff.mp h
      obtain ⟨rfl, rfl⟩ := Prod.mk.inj same
      obtain ⟨short, enclosed⟩ := isEnclosed_of_behind found
      exact ⟨short, .literal (isEnclosed_cons_iff.mpr ⟨angle, enclosed⟩)⟩

/-- What is taken off a text fits its rule. -/
theorem fits_of_first? (h : first? c cs = some (kind, n)) :
    n ≤ cs.length ∧ Fits kind (c :: cs.take n) (cs.drop n) := by
  unfold first? at h
  by_cases separates : isSeparator c = true
  · rw [if_pos separates] at h
    obtain ⟨run, rest, rfl, longest, separators, stops⟩ := split_takeWhile isSeparator cs
    simp only [longest] at h
    obtain ⟨rfl, rfl⟩ := Prod.mk.inj (Option.some.inj h)
    rw [List.take_left, List.drop_left]
    have all : ∀ d ∈ c :: run, isSeparator d = true := List.forall_mem_cons.mpr ⟨separates, separators⟩
    refine ⟨by simp, ?_⟩
    by_cases breaks : (c :: run).any isBreak = true
    · rw [if_pos breaks]
      exact .branch all (List.any_eq_true.mp breaks) stops
    · rw [if_neg breaks]
      refine .spaces (by simp) all (fun d hd => ?_) stops
      by_contra broken
      exact breaks (List.any_eq_true.mpr ⟨d, hd, by simpa using broken⟩)
  · rw [if_neg separates] at h
    cases enclosed : enclosed? c cs with
    | some found =>
      rw [enclosed] at h
      obtain rfl := Option.some.inj h
      exact fits_of_enclosed? enclosed
    | none =>
      rw [enclosed] at h
      cases bracket : bracket? c with
      | some found =>
        rw [bracket] at h
        obtain ⟨rfl, rfl⟩ := Prod.mk.inj (Option.some.inj h)
        exact ⟨Nat.zero_le _, fits_of_bracket? bracket cs⟩
      | none =>
        rw [bracket] at h
        by_cases isWord : isWordChar c = true
        · simp only [if_pos isWord] at h
          obtain ⟨run, rest, rfl, longest, wordChars, stops⟩ := split_takeWhile isWordChar cs
          simp only [longest] at h
          obtain ⟨rfl, rfl⟩ := Prod.mk.inj (Option.some.inj h)
          rw [List.take_left, List.drop_left]
          obtain ⟨noComment, noLiteral⟩ := enclosed?_eq_none_iff.mp enclosed
          exact ⟨by simp, .atom (by simp) (List.forall_mem_cons.mpr ⟨isWord, wordChars⟩) stops
            noComment noLiteral⟩
        · simp [isWord] at h

theorem first?_of_separators {cs rest : List Char} (separators : ∀ d ∈ c :: cs, isSeparator d = true)
    (stops : ∀ d ∈ rest.head?, isSeparator d = false) : first? c (cs ++ rest) =
      some (if (c :: cs).any isBreak then .branch else .spaces, cs.length) := by
  obtain ⟨first, behind⟩ := List.forall_mem_cons.mp separators
  rw [first?, if_pos first, takeWhile_append_eq_iff.mpr ⟨behind, stops⟩]

theorem first?_of_enclosed? (h : enclosed? c cs = some (kind, n)) :
    first? c cs = some (kind, n) := by
  have other : isSeparator c = false := by
    unfold enclosed? at h
    split at h
    case isTrue slash => exact slash ▸ rfl
    case isFalse =>
      split at h
      case isTrue angle => exact angle ▸ rfl
      case isFalse => cases h
  simp [first?, other, h]

theorem first?_of_isComment {text : List Char} (h : IsEnclosed commentOpening commentClosing text)
    (rest : List Char) : ∃ c cs, text = c :: cs ∧ first? c (cs ++ rest) =
      some (if '\n' ∈ text then .multiLineComment else .comment, cs.length) := by
  cases text with
  | nil => exact absurd h.between not_isBetween_nil
  | cons c cs =>
    obtain ⟨rfl, enclosed⟩ := isEnclosed_cons_iff.mp h
    refine ⟨'/', cs, rfl, first?_of_enclosed? ?_⟩
    rw [enclosed?, if_pos rfl, comment?_eq, behind_of_isEnclosed enclosed]
    simp

/-- The rules leave no choice: what fits one of them is taken off. -/
theorem first?_of_fits {text rest : List Char} (h : Fits kind text rest) :
    ∃ c cs, text = c :: cs ∧ first? c (cs ++ rest) = some (kind, cs.length) := by
  cases h with
  | branch separators breaks stops =>
    obtain ⟨d, hd, breaks⟩ := breaks
    obtain ⟨c, cs, rfl⟩ := List.exists_cons_of_ne_nil (List.ne_nil_of_mem hd)
    refine ⟨c, cs, rfl, ?_⟩
    rw [first?_of_separators separators stops, if_pos (List.any_eq_true.mpr ⟨d, hd, breaks⟩)]
  | spaces nonempty separators unbroken stops =>
    obtain ⟨c, cs, rfl⟩ := List.exists_cons_of_ne_nil nonempty
    refine ⟨c, cs, rfl, ?_⟩
    rw [first?_of_separators separators stops, if_neg]
    intro breaks
    obtain ⟨d, hd, breaks⟩ := List.any_eq_true.mp breaks
    simp [unbroken d hd] at breaks
  | comment enclosed line => simpa [line] using first?_of_isComment enclosed rest
  | multiLineComment enclosed lines => simpa [lines] using first?_of_isComment enclosed rest
  | literal enclosed =>
    cases text with
    | nil => exact absurd enclosed.between not_isBetween_nil
    | cons c cs =>
      obtain ⟨rfl, inner⟩ := isEnclosed_cons_iff.mp enclosed
      refine ⟨'<', cs, rfl, first?_of_enclosed? ?_⟩
      rw [enclosed?, if_neg (by decide), if_pos rfl, literal?_eq, behind_of_isEnclosed inner]
      rfl
  | opening bracket => exact ⟨_, [], rfl, first?_of_bracket? (bracket?_opening bracket) rest⟩
  | closing bracket => exact ⟨_, [], rfl, first?_of_bracket? (bracket?_closing bracket) rest⟩
  | atom nonempty wordChars stops noComment noLiteral =>
    obtain ⟨c, cs, rfl⟩ := List.exists_cons_of_ne_nil nonempty
    obtain ⟨isWord, behind⟩ := List.forall_mem_cons.mp wordChars
    have noEnclosed : enclosed? c (cs ++ rest) = none :=
      enclosed?_eq_none_iff.mpr ⟨noComment, noLiteral⟩
    refine ⟨c, cs, rfl, ?_⟩
    rw [first?, if_neg (by simp [isSeparator_of_isWordChar isWord]), noEnclosed,
      bracket?_of_isWordChar isWord]
    simp only
    rw [if_pos isWord, takeWhile_append_eq_iff.mpr ⟨behind, stops⟩]

/-! ## Where no token starts -/

/-- White space that separates no tokens. -/
def IsStray (c : Char) : Prop :=
  Text.isWhitespace c = true ∧ c ∉ [' ', '\t', '\r', '\n']

theorem isSeparator_iff :
    isSeparator c = true ↔ c = '\n' ∨ c = ',' ∨ c = ' ' ∨ c = '\t' ∨ c = '\r' := by
  simp [isSeparator, isBreak, or_assoc]

theorem isStray_iff : IsStray c ↔
    isSeparator c = false ∧ bracket? c = none ∧ isWordChar c = false := by
  constructor
  · rintro ⟨white, other⟩
    have noSeparator : isSeparator c = false := by
      rw [← Bool.not_eq_true, isSeparator_iff]
      rintro (rfl | rfl | rfl | rfl | rfl)
      · simp at other
      · exact absurd white (by decide)
      · simp at other
      · simp at other
      · simp at other
    refine ⟨noSeparator, ?_, by simp [isWordChar, white]⟩
    unfold bracket?
    split <;> first | rfl | exact absurd white (by decide)
  · rintro ⟨noSeparator, noBracket, noWord⟩
    have white : Text.isWhitespace c = true := by
      by_contra black
      have reserved : isReserved c = true := by
        simpa [isWordChar, black] using noWord
      have hc : c = ',' ∨ c = '{' ∨ c = '}' ∨ c = '[' ∨ c = ']' ∨ c = '(' ∨ c = ')' := by
        simpa [isReserved] using reserved
      rcases hc with rfl | rfl | rfl | rfl | rfl | rfl | rfl
      · exact absurd noSeparator (by decide)
      all_goals cases noBracket
    refine ⟨white, fun blank => ?_⟩
    have separates : isSeparator c = true := by
      rw [isSeparator_iff]
      simp only [List.mem_cons, List.not_mem_nil, or_false] at blank
      rcases blank with rfl | rfl | rfl | rfl <;> simp
    simp [separates] at noSeparator

theorem first?_eq_none_iff : first? c cs = none ↔ IsStray c := by
  rw [isStray_iff]
  constructor
  · intro none
    unfold first? at none
    by_cases separates : isSeparator c = true
    · simp [separates] at none
    · rw [if_neg separates] at none
      cases enclosed : enclosed? c cs with
      | some found => simp [enclosed] at none
      | none =>
        cases bracket : bracket? c with
        | some found => simp [enclosed, bracket] at none
        | none =>
          refine ⟨by simpa using separates, rfl, ?_⟩
          simpa [enclosed, bracket] using none
  · rintro ⟨noSeparator, noBracket, noWord⟩
    have noEnclosed : enclosed? c cs = none := by
      unfold enclosed?
      split
      case isTrue slash => exact absurd (slash ▸ noWord) (by decide)
      case isFalse =>
        split
        case isTrue angle => exact absurd (angle ▸ noWord) (by decide)
        case isFalse => rfl
    simp [first?, noSeparator, noEnclosed, noBracket, noWord]

end Token
end ConceptSpace.Source
