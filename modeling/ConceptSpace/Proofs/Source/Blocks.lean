import ConceptSpace.Proofs.Source.Words

/-!
# Text that spells an outline

A text *spells* nodes if its tokens append just these nodes to the branch under construction,
whatever stands around it; it spells branches if its tokens lay them out in the innermost open
block. Longer texts are put together from shorter ones: words, blanks between nodes, commas or
newlines between branches, and brackets around branches. The main statement is `outline_of_spells`: a text
that spells branches has them as its outline.
-/

namespace ConceptSpace.Source

open Token (scan IsDelimited isDelimited_cons isDelimited_nil)

namespace Outline

/-- The stack with nodes appended to the branch under construction. -/
def Stack.pushAll (s : Stack) (nodes : List Node) : Stack :=
  { s with top := { s.top with current := s.top.current ++ nodes } }

theorem Stack.pushAll_append (s : Stack) (nodes more : List Node) :
    s.pushAll (nodes ++ more) = (s.pushAll nodes).pushAll more := by
  simp [pushAll]

theorem Stack.run_cons {s next : Stack} {token : Token} (h : s.step token = .ok next)
    (tokens : List Token) : s.run (token :: tokens) = next.run tokens := by
  rw [run, h]

theorem Stack.exists_of_run_cons {s last : Stack} {token : Token} {tokens : List Token}
    (h : s.run (token :: tokens) = .ok last) :
    ∃ next, s.step token = .ok next ∧ next.run tokens = .ok last := by
  rw [run] at h
  cases stepped : s.step token with
  | error fault => simp [stepped] at h
  | ok next =>
    simp only [stepped] at h
    exact ⟨next, rfl, h⟩

end Outline

open Outline (Stack Frame)

/-- The text appends nodes to the branch that it stands in. -/
structure Spells (cs : List Char) (nodes : List Node) : Prop where
  /-- The text does not start with a separator. -/
  head : ∃ c more, cs = c :: more ∧ Token.isSeparator c = false
  /-- What its tokens do, before any text that does not go on with its last word. -/
  run : ∀ offset rest, IsDelimited rest → ∃ tokens stop,
    scan offset (cs ++ rest) = (scan stop rest).map (tokens ++ ·) ∧
    ∀ (s : Stack) (more : List Token), s.run (tokens ++ more) = (s.pushAll nodes).run more

/-- The text lays out branches in a block that has just been opened, or behind a finished
branch. -/
structure SpellsBranches (cs : List Char) (branches : List Branch) : Prop where
  /-- The text does not start with a separator. -/
  head : ∃ c more, cs = c :: more ∧ Token.isSeparator c = false
  /-- What its tokens do, before any text that does not go on with its last word. -/
  run : ∀ offset rest, IsDelimited rest → ∃ tokens stop,
    scan offset (cs ++ rest) = (scan stop rest).map (tokens ++ ·) ∧
    ∀ s : Stack, s.top.current = [] → ∃ top : Frame,
      top.bracket = s.top.bracket ∧ top.branches = s.top.finished ++ branches ∧
      ∀ more : List Token, s.run (tokens ++ more) = Stack.run ⟨top, s.outer⟩ more

/-! ## Nodes -/

/-- A clean word spells itself. -/
theorem Spells.word {word : String} (h : isToken word = true) :
    Spells word.toList [.atom word] where
  head := by
    obtain ⟨_, c, cs, -, e, hc, -⟩ := Token.first?_of_isToken h isDelimited_nil
    exact ⟨c, cs, e, hc⟩
  run offset rest delimited := by
    obtain ⟨token, stop, kind, text, scanned⟩ := Token.scan_word h delimited offset
    refine ⟨[token], stop, scanned, fun s more => Outline.Stack.run_cons ?_ more⟩
    rcases kind with kind | kind <;>
      simp [Outline.Stack.step, kind, text, Outline.Stack.pushAll, Outline.Frame.push]

/-- A blank between texts keeps their nodes apart. -/
theorem Spells.append {cs ds : List Char} {nodes more : List Node} (hc : Spells cs nodes)
    (hd : Spells ds more) : Spells (cs ++ ' ' :: ds) (nodes ++ more) where
  head := by
    obtain ⟨c, tail, rfl, h⟩ := hc.head
    exact ⟨c, tail ++ ' ' :: ds, rfl, h⟩
  run offset rest delimited := by
    obtain ⟨d, tail, rfl, hs⟩ := hd.head
    obtain ⟨first, middle, scanned, run⟩ :=
      hc.run offset (' ' :: (d :: tail ++ rest)) (isDelimited_cons (by decide))
    obtain ⟨blank, middle', kind, scanned'⟩ :=
      Token.scan_separator (c := ' ') (tail ++ rest) (by decide) hs middle
    obtain ⟨second, stop, scanned'', run'⟩ := hd.run middle' rest delimited
    refine ⟨first ++ blank :: second, stop, ?_, fun s tokens => ?_⟩
    · rw [List.append_assoc, List.cons_append, scanned, List.cons_append, scanned',
        ← List.cons_append, scanned'']
      cases scan stop rest <;> simp [Except.map]
    · have step : (s.pushAll nodes).step blank = .ok (s.pushAll nodes) := by
        simp [Outline.Stack.step, kind, Token.isBreak]
      rw [List.append_assoc, List.cons_append, run, Outline.Stack.run_cons step, run',
        ← Outline.Stack.pushAll_append]

/-! ## Branches -/

/-- Nodes are a branch. -/
theorem Spells.branch {cs : List Char} {nodes : List Node} (h : Spells cs nodes)
    (nonempty : nodes ≠ []) : SpellsBranches cs [nodes] where
  head := h.head
  run offset rest delimited := by
    obtain ⟨tokens, stop, scanned, run⟩ := h.run offset rest delimited
    refine ⟨tokens, stop, scanned, fun s empty => ?_⟩
    refine ⟨(s.pushAll nodes).top, rfl, ?_, fun more => run s more⟩
    simp [Outline.Stack.pushAll, Outline.Frame.branches, empty, nonempty]

/-- A comma or a newline finishes a branch. -/
theorem Spells.cons {cs ds : List Char} {nodes : List Node} {branches : List Branch}
    (h : Spells cs nodes) (nonempty : nodes ≠ []) {sep : Char} (hb : Token.isBreak sep = true)
    (hd : SpellsBranches ds branches) :
    SpellsBranches (cs ++ sep :: ds) (nodes :: branches) where
  head := by
    obtain ⟨c, tail, rfl, hc⟩ := h.head
    exact ⟨c, tail ++ sep :: ds, rfl, hc⟩
  run offset rest delimited := by
    obtain ⟨d, tail, rfl, hs⟩ := hd.head
    have separates : Token.isSeparator sep = true := by simp [Token.isSeparator, hb]
    have delimits : Token.isWordChar sep = false := by
      cases word : Token.isWordChar sep with
      | false => rfl
      | true => exact absurd separates (by simp [Token.isSeparator_of_isWordChar word])
    obtain ⟨first, middle, scanned, run⟩ :=
      h.run offset (sep :: (d :: tail ++ rest)) (isDelimited_cons delimits)
    obtain ⟨broken, middle', kind, scanned'⟩ :=
      Token.scan_separator (tail ++ rest) separates hs middle
    obtain ⟨second, stop, scanned'', run'⟩ := hd.run middle' rest delimited
    refine ⟨first ++ broken :: second, stop, ?_, fun s empty => ?_⟩
    · rw [List.append_assoc, List.cons_append, scanned, List.cons_append, scanned',
        ← List.cons_append, scanned'']
      cases scan stop rest <;> simp [Except.map]
    · let next : Stack := { s with top := (s.pushAll nodes).top.nextBranch }
      have step : (s.pushAll nodes).step broken = .ok next := by
        simp [Outline.Stack.step, kind, hb, next, Outline.Stack.pushAll]
      obtain ⟨top, bracket, laid, run'⟩ := run' next rfl
      refine ⟨top, bracket, ?_, fun more => ?_⟩
      · rw [laid]
        simp [next, Outline.Stack.pushAll, Outline.Frame.nextBranch, Outline.Frame.branches, empty,
          nonempty]
      · rw [List.append_assoc, List.cons_append, run, Outline.Stack.run_cons step, run']

/-- Square brackets around branches make a nested block. -/
theorem SpellsBranches.nested {cs : List Char} {branches : List Branch}
    (h : SpellsBranches cs branches) (nonempty : branches ≠ []) :
    Spells ('[' :: (cs ++ [']'])) [.block .nested branches] where
  head := ⟨'[', cs ++ [']'], rfl, by decide⟩
  run offset rest delimited := by
    obtain ⟨opening, middle, kind, scanned⟩ :=
      Token.scan_bracket (c := '[') rfl (cs ++ ']' :: rest) offset
    obtain ⟨inner, middle', scanned', run⟩ :=
      h.run middle (']' :: rest) (isDelimited_cons (by decide))
    obtain ⟨closing, stop, kind', scanned''⟩ := Token.scan_bracket (c := ']') rfl rest middle'
    refine ⟨opening :: (inner ++ [closing]), stop, ?_, fun s more => ?_⟩
    · rw [List.cons_append, List.append_assoc, List.singleton_append, scanned, scanned', scanned'']
      cases scan stop rest <;> simp [Except.map]
    · let inside : Stack := ⟨.start .nested opening.start, s.top :: s.outer⟩
      have opened : s.step opening = .ok inside := by
        simp [Outline.Stack.step, kind, inside]
      obtain ⟨top, bracket, laid, run⟩ := run inside rfl
      have hb : top.branches = branches := by
        simpa [inside, Outline.Frame.start] using laid
      have closed : Stack.step ⟨top, inside.outer⟩ closing =
          .ok (s.pushAll [.block .nested branches]) := by
        have bracket : top.bracket = .nested := bracket
        simp [Outline.Stack.step, kind', Outline.Stack.close, inside, bracket,
          Outline.Frame.closeInto, hb, nonempty, Outline.Stack.pushAll, Outline.Frame.push]
      rw [List.cons_append, Outline.Stack.run_cons opened, List.append_assoc, run,
        List.singleton_append, Outline.Stack.run_cons closed]

/-! ## Whole texts -/

/-- A text that spells branches is cut into tokens that have these branches as their outline. -/
theorem outline_of_spells {source : String} {branches : List Branch}
    (h : SpellsBranches source.toList branches) :
    ∃ tokens, tokenize source = .ok tokens ∧ outline source tokens = .ok ⟨.inline, branches⟩ := by
  obtain ⟨tokens, stop, scanned, run⟩ := h.run 0 [] isDelimited_nil
  obtain ⟨top, bracket, laid, run⟩ := run .root rfl
  have scanned : scan 0 source.toList = .ok tokens := by
    simpa [scan, Except.map] using scanned
  have hb : top.branches = branches := by
    simpa [Outline.Stack.root, Outline.Frame.start] using laid
  have bracket : top.bracket = .inline := bracket
  refine ⟨tokens, by rw [tokenize, scanned]; rfl, ?_⟩
  have run : Outline.Stack.root.run tokens = .ok ⟨top, []⟩ := by
    simpa [Outline.Stack.run, Outline.Stack.root] using run []
  have laid : Outline.ofTokens tokens = .ok ⟨.inline, branches⟩ := by
    simp [Outline.ofTokens, run, Outline.Stack.finish, hb, bracket]
  rw [outline, laid]
  rfl

theorem outline_empty : tokenize "" = .ok [] ∧ outline "" [] = .ok ⟨.inline, []⟩ := by
  refine ⟨?_, rfl⟩
  have scanned : scan 0 "".toList = .ok [] := by simp [scan]
  rw [tokenize, scanned]
  rfl

end ConceptSpace.Source
