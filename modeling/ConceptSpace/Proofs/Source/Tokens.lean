import ConceptSpace.Proofs.Source.TokenRules
import ConceptSpace.Proofs.Storage.Encoding

/-!
# Texts as tokens

A text is cut into tokens by applying the rules one after the other. The tokens make up the text
(`Cuts.isTiling`), and cutting stops early just where white space that separates no tokens stands at
the start of a token; the error then shows this place (`tokenize_spec`).
-/

namespace ConceptSpace.Source

/-! ## Places in a text -/

theorem charsWithin_append (before rest : List Char) :
    charsWithin (byteLength before) (before ++ rest) = before := by
  induction before with
  | nil =>
    cases rest with
    | nil => rfl
    | cons c rest =>
      have wide := c.utf8Size_pos
      rw [List.nil_append, charsWithin, if_neg (by simpa [byteLength] using wide.ne')]
  | cons c before ih =>
    rw [Storage.Key.byteLength_cons, List.cons_append, charsWithin, if_pos (by omega),
      Nat.add_sub_cancel_left, ih]

namespace Position

/-- The place behind a text: the line is counted by the line ends before it, the column by the
characters that stand before it in its line. -/
def StandsBehind (place : Position) (text : List Char) : Prop :=
  ∃ lines line, text = lines ++ line ∧ '\n' ∉ line ∧ (∀ c ∈ lines.getLast?, c = '\n') ∧
    place = ⟨lines.count '\n' + 1, line.length + 1⟩

theorem standsBehind_iff {place : Position} {text : List Char} :
    place.StandsBehind text ↔ place = after text := by
  have unique : ∀ {lines line : List Char}, '\n' ∉ line → (∀ c ∈ lines.getLast?, c = '\n') →
      after (lines ++ line) = ⟨lines.count '\n' + 1, line.length + 1⟩ := by
    intro lines line noEnd ends
    have run : (lines ++ line).reverse.takeWhile (· ≠ '\n') = line.reverse := by
      rw [List.reverse_append, Token.takeWhile_append_eq_iff]
      constructor
      · intro c hc
        have other : c ≠ '\n' := fun e => noEnd (e ▸ List.mem_reverse.mp hc)
        simpa using other
      · intro c hc
        rw [List.head?_reverse] at hc
        simpa using ends c hc
    rw [after, run, List.count_append, List.count_eq_zero.mpr noEnd, List.length_reverse,
      Nat.add_zero]
  constructor
  · rintro ⟨lines, line, rfl, noEnd, ends, rfl⟩
    rw [unique noEnd ends]
  · rintro rfl
    obtain ⟨line, lines, split, -, noEnd, ends⟩ :=
      Token.split_takeWhile (· ≠ '\n') text.reverse
    have noEnd : '\n' ∉ line.reverse := by
      intro h
      simpa using noEnd _ (List.mem_reverse.mp h)
    have ends : ∀ c ∈ lines.reverse.getLast?, c = '\n' := by
      intro c hc
      rw [List.getLast?_reverse] at hc
      simpa using ends c hc
    have text_eq : text = lines.reverse ++ line.reverse := by
      rw [← List.reverse_append, ← split, List.reverse_reverse]
    refine ⟨_, _, text_eq, noEnd, ends, ?_⟩
    rw [text_eq, unique noEnd ends]

end Position

namespace Token

variable {c : Char} {cs rest : List Char} {kind : TokenKind} {offset : Nat} {tokens : List Token}

/-! ## Cutting tokens off a text -/

/-- Tokens can be cut off a text that starts at an offset, one after the other, each by its rule;
then the last text is left. -/
inductive Cuts : Nat → List Char → List Token → List Char → Prop where
  /-- Nothing has been cut off. -/
  | start (offset : Nat) (cs : List Char) : Cuts offset cs [] cs
  /-- One token, then others. -/
  | next {offset : Nat} {kind : TokenKind} {text behind rest : List Char} {tokens : List Token}
    (fits : Fits kind text behind) (h : Cuts (offset + byteLength text) behind tokens rest) :
    Cuts offset (text ++ behind) (⟨kind, String.ofList text, offset⟩ :: tokens) rest

/-- The texts of tokens, one after the other. -/
def joined (tokens : List Token) : List Char :=
  tokens.flatMap (·.text.toList)

/-- Tokens from one offset to another, each of which starts where the one before it stops. -/
def Span : Nat → List Token → Nat → Prop
  | start, [], stop => start = stop
  | start, t :: tokens, stop => t.start = start ∧ Span t.stop tokens stop

/-- A token of separators. -/
def IsGap (t : Token) : Prop :=
  t.kind = .spaces ∨ t.kind = .branch

theorem stop_mk (kind : TokenKind) (text : List Char) (offset : Nat) :
    stop ⟨kind, String.ofList text, offset⟩ = offset + byteLength text := by
  rw [stop, Storage.Key.utf8ByteSize_eq_byteLength, String.toList_ofList]

theorem Fits.ne_nil {text : List Char} (h : Fits kind text rest) : text ≠ [] := by
  obtain ⟨c, cs, rfl, -⟩ := first?_of_fits h
  simp

theorem Cuts.joined_append (h : Cuts offset cs tokens rest) : joined tokens ++ rest = cs := by
  induction h with
  | start => rfl
  | next fits _ ih => simpa [joined] using ih

theorem Cuts.text_ne_empty (h : Cuts offset cs tokens rest) : ∀ t ∈ tokens, t.text ≠ "" := by
  induction h with
  | start => simp
  | next fits _ ih =>
    intro t ht
    rcases List.mem_cons.mp ht with rfl | ht
    · intro empty
      exact fits.ne_nil (by simpa using congrArg String.toList empty)
    · exact ih t ht

theorem Cuts.span (h : Cuts offset cs tokens rest) :
    Span offset tokens (offset + byteLength (joined tokens)) := by
  induction h with
  | start => rfl
  | @next offset kind text behind rest tokens fits h ih =>
    refine ⟨rfl, ?_⟩
    rw [stop_mk]
    have all : byteLength (joined (⟨kind, String.ofList text, offset⟩ :: tokens)) =
        byteLength text + byteLength (joined tokens) := by
      rw [joined, List.flatMap_cons, String.toList_ofList, Storage.Key.byteLength_append]
      rfl
    rwa [all, ← Nat.add_assoc]

/-- A token of separators is the longest run of them. -/
theorem Fits.separators {text : List Char} (h : Fits kind text rest)
    (gap : kind = .spaces ∨ kind = .branch) :
    (∀ c ∈ text, isSeparator c = true) ∧ ∀ c ∈ rest.head?, isSeparator c = false := by
  cases h with
  | branch separators _ stops => exact ⟨separators, stops⟩
  | spaces _ separators _ stops => exact ⟨separators, stops⟩
  | _ => simp at gap

theorem Cuts.isChain (h : Cuts offset cs tokens rest) :
    tokens.IsChain fun s t => ¬ (s.IsGap ∧ t.IsGap) := by
  induction h with
  | start => exact .nil
  | @next offset kind text behind rest tokens fits h ih =>
    cases h with
    | start => exact .singleton _
    | @next _ _ text' _ _ _ fits' h =>
      refine ih.cons_cons ?_
      rintro ⟨gap, gap'⟩
      obtain ⟨d, ds, rfl⟩ := List.exists_cons_of_ne_nil fits'.ne_nil
      have separates := (fits'.separators gap').1 d (by simp)
      have stops := (fits.separators gap).2 d (by simp)
      simp [separates] at stops

/-- Every text can be cut up to its end, or up to white space that separates no tokens. -/
theorem exists_cuts (offset : Nat) (cs : List Char) :
    ∃ tokens rest, Cuts offset cs tokens rest ∧ ∀ c ∈ rest.head?, IsStray c := by
  fun_induction scan offset cs with
  | case1 offset => exact ⟨[], [], .start offset [], by simp⟩
  | case2 offset c cs none =>
    exact ⟨[], c :: cs, .start offset _, by simpa using first?_eq_none_iff.mp none⟩
  | case3 offset c cs kind n first token ih =>
    obtain ⟨tokens, rest, cuts, stray⟩ := ih
    obtain ⟨short, fits⟩ := fits_of_first? first
    rw [stop_mk] at cuts
    have all : c :: cs.take n ++ cs.drop n = c :: cs := by
      rw [List.cons_append, List.take_append_drop]
    exact ⟨token :: tokens, rest, all ▸ .next fits cuts, stray⟩

theorem joined_cons (kind : TokenKind) (text : List Char) (offset : Nat) (tokens : List Token) :
    joined (⟨kind, String.ofList text, offset⟩ :: tokens) = text ++ joined tokens := by
  rw [joined, List.flatMap_cons, String.toList_ofList]
  rfl

/-- What has been cut off comes first. -/
theorem Cuts.scan_eq (h : Cuts offset cs tokens rest) : scan offset cs =
    (scan (offset + byteLength (joined tokens)) rest).map (tokens ++ ·) := by
  induction h with
  | start offset cs =>
    change _ = (scan offset cs).map _
    cases scan offset cs <;> rfl
  | @next offset kind text behind rest tokens fits h ih =>
    obtain ⟨c, cs, rfl, first⟩ := first?_of_fits fits
    rw [List.cons_append, scan]
    simp only [first, List.take_left, List.drop_left]
    rw [stop_mk, ih, joined_cons, Storage.Key.byteLength_append, ← Nat.add_assoc]
    cases scan (offset + byteLength (c :: cs) + byteLength (joined tokens)) rest <;> rfl

/-- The rules leave no choice. -/
theorem Fits.unique {kind' : TokenKind} {text text' rest' : List Char} (h : Fits kind text rest)
    (h' : Fits kind' text' rest') (same : text ++ rest = text' ++ rest') :
    kind = kind' ∧ text = text' ∧ rest = rest' := by
  obtain ⟨c, cs, rfl, first⟩ := first?_of_fits h
  obtain ⟨c', cs', rfl, first'⟩ := first?_of_fits h'
  rw [List.cons_append, List.cons_append] at same
  obtain ⟨rfl, behind⟩ := List.cons.inj same
  rw [behind, first'] at first
  obtain ⟨rfl, length⟩ := Prod.mk.inj (Option.some.inj first)
  obtain ⟨rfl, rfl⟩ := List.append_inj behind length.symm
  exact ⟨rfl, rfl, rfl⟩

theorem Cuts.eq_or_exists (h : Cuts offset cs tokens rest) : tokens = [] ∧ rest = cs ∨
    ∃ kind text behind more, cs = text ++ behind ∧ Fits kind text behind ∧
      tokens = ⟨kind, String.ofList text, offset⟩ :: more ∧
        Cuts (offset + byteLength text) behind more rest := by
  cases h with
  | start => exact .inl ⟨rfl, rfl⟩
  | next fits h => exact .inr ⟨_, _, _, _, rfl, fits, rfl, h⟩

/-- Nothing is cut off behind white space that separates no tokens. -/
theorem Cuts.isPrefix (h : Cuts offset cs tokens (c :: rest)) (stray : IsStray c)
    {others : List Token} {left : List Char} (h' : Cuts offset cs others left) :
    others <+: tokens := by
  induction h' generalizing tokens with
  | start => exact List.nil_prefix
  | @next offset kind text behind left others fits _ ih =>
    rcases h.eq_or_exists with ⟨-, e⟩ | ⟨kind', text', behind', more, e, fits', rfl, h⟩
    · obtain ⟨d, ds, rfl, first⟩ := first?_of_fits fits
      obtain ⟨rfl, -⟩ := List.cons.inj e
      rw [first?_eq_none_iff.mpr stray] at first
      cases first
    · obtain ⟨rfl, rfl, rfl⟩ := fits.unique fits' e
      exact List.cons_prefix_cons.mpr ⟨rfl, ih h⟩

theorem Cuts.scan_eq_ok (h : Cuts offset cs tokens []) : scan offset cs = .ok tokens := by
  rw [h.scan_eq, scan]
  simp [Except.map]

theorem Cuts.scan_eq_error (h : Cuts offset cs tokens (c :: rest)) (stray : IsStray c) :
    scan offset cs = .error ⟨offset + byteLength (joined tokens), c :: rest⟩ := by
  rw [h.scan_eq, scan]
  simp only [first?_eq_none_iff.mpr stray]
  rfl

theorem scan_eq_ok_iff : scan offset cs = .ok tokens ↔ Cuts offset cs tokens [] := by
  refine ⟨fun scanned => ?_, Cuts.scan_eq_ok⟩
  obtain ⟨others, rest, cuts, stray⟩ := exists_cuts offset cs
  cases rest with
  | nil =>
    obtain rfl := Except.ok.inj (scanned.symm.trans cuts.scan_eq_ok)
    exact cuts
  | cons c rest =>
    rw [cuts.scan_eq_error (stray c (by simp))] at scanned
    cases scanned

end Token

open Token (Cuts IsStray joined)

/-- Tokens that make up a text. -/
structure IsTiling (source : String) (tokens : List Token) : Prop where
  /-- No token is empty. -/
  nonempty : ∀ t ∈ tokens, t.text ≠ ""
  /-- The texts of the tokens are the text. -/
  texts : joined tokens = source.toList
  /-- Each token starts where the one before it stops. -/
  span : Token.Span 0 tokens source.utf8ByteSize
  /-- Separators that stand together are one token. -/
  apart : tokens.IsChain fun s t => ¬ (s.IsGap ∧ t.IsGap)

theorem Token.Cuts.isTiling {source : String} {tokens : List Token}
    (h : Cuts 0 source.toList tokens []) : IsTiling source tokens where
  nonempty := h.text_ne_empty
  texts := by simpa using h.joined_append
  span := by
    have joined : joined tokens = source.toList := by simpa using h.joined_append
    have span := h.span
    rwa [joined, ← Storage.Key.utf8ByteSize_eq_byteLength, Nat.zero_add] at span
  apart := h.isChain

theorem tokenize_eq_ok_iff_cuts {source : String} {tokens : List Token} :
    tokenize source = .ok tokens ↔ Cuts 0 source.toList tokens [] :=
  tokenize_eq_ok_iff.trans Token.scan_eq_ok_iff

theorem Token.Cuts.tokenize_eq_error {source : String} {tokens : List Token} {c : Char}
    {rest : List Char} (h : Cuts 0 source.toList tokens (c :: rest)) (stray : IsStray c) :
    tokenize source = .error
      (.unexpectedInput (String.ofList ((c :: rest).take 16)) (.after (joined tokens))) := by
  have place : Position.ofOffset source (byteLength (joined tokens)) = .after (joined tokens) := by
    rw [Position.ofOffset, ← h.joined_append, charsWithin_append]
  rw [tokenize, h.scan_eq_error stray, Nat.zero_add, ← place]
  rfl

/-- A text is cut into tokens that make it up, or it is refused, and that just if white space that
separates no tokens stands at the start of a token; then the line and the column of the first place
of this kind are reported. -/
theorem tokenize_spec (source : String) :
    (∃ tokens, tokenize source = .ok tokens ∧ Cuts 0 source.toList tokens [] ∧
      IsTiling source tokens ∧
        ∀ cut c rest, Cuts 0 source.toList cut (c :: rest) → ¬ IsStray c) ∨
    ∃ cut c rest place, Cuts 0 source.toList cut (c :: rest) ∧ IsStray c ∧
      (∀ others left, Cuts 0 source.toList others left → others <+: cut) ∧
      place.StandsBehind (joined cut) ∧
      tokenize source = .error (.unexpectedInput (String.ofList ((c :: rest).take 16)) place) := by
  obtain ⟨tokens, rest, cuts, stray⟩ := Token.exists_cuts 0 source.toList
  cases rest with
  | nil =>
    have cut := tokenize_eq_ok_iff_cuts.mpr cuts
    refine .inl ⟨tokens, cut, cuts, cuts.isTiling, fun others c rest h stray => ?_⟩
    have failed := h.tokenize_eq_error stray
    rw [cut] at failed
    cases failed
  | cons c rest =>
    have stray := stray c (by simp)
    exact .inr ⟨tokens, c, rest, .after (joined tokens), cuts, stray,
      fun others left h => cuts.isPrefix stray h, Position.standsBehind_iff.mpr rfl,
      cuts.tokenize_eq_error stray⟩

end ConceptSpace.Source
