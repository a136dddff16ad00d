import ConceptSpace.Proofs.Sequence.Traversal
import ConceptSpace.Proofs.Source.Blocks

/-!
# Nested brackets

When tokens have an outline. Tokens are *nested* if every bracket has its partner; the other tokens
do not matter. Reading nested tokens leaves the open blocks as they were and fills the innermost of
them (`Stack.exists_run_of_isNested`). Conversely, the stack that tokens lead to says which brackets
are still open and that all between them is nested (`Stands.run`). The main statement is
`outline_spec`: nested tokens and no others have an outline, any others are refused at their first
fault, and in an outline neither a branch nor a block is empty.
-/

namespace ConceptSpace.Source

open Outline (Stack Frame Fault)

/-! ## Brackets -/

/-- Whether a token opens or closes a block. -/
def Token.isBracket (t : Token) : Bool :=
  match t.kind with
  | .opening _ | .closing _ => true
  | _ => false

/-- Tokens in which every opening bracket is closed by one of its kind, and nothing else is. -/
inductive IsNested : List Token → Prop where
  | nil : IsNested []
  | other {t : Token} {tokens : List Token} (plain : t.isBracket = false)
    (h : IsNested tokens) : IsNested (t :: tokens)
  | block {o c : Token} {b : Bracket} {inner rest : List Token} (opens : o.kind = .opening b)
    (closes : c.kind = .closing b) (inside : IsNested inner) (h : IsNested rest) :
    IsNested (o :: (inner ++ c :: rest))

/-- The innermost block that is open behind some tokens was opened by `o` and is of kind `b`. -/
def IsInnermost (tokens : List Token) (o : Token) (b : Bracket) : Prop :=
  ∃ before inner, tokens = before ++ o :: inner ∧ o.kind = .opening b ∧ IsNested inner

/-- A closing bracket of kind `b` behind some tokens does not close the innermost open block: that
is of another kind, or none is open. -/
def IsMismatch (before : List Token) (t : Token) (b : Bracket) : Prop :=
  t.kind = .closing b ∧ ∀ o kind, IsInnermost before o kind → kind ≠ b

/-- Every closing bracket closes the innermost block that is open before it. -/
def IsMatched (tokens : List Token) : Prop :=
  ∀ before t after b, tokens = before ++ t :: after → ¬ IsMismatch before t b

theorem IsNested.append {tokens more : List Token} (h : IsNested tokens) (hm : IsNested more) :
    IsNested (tokens ++ more) := by
  induction h with
  | nil => exact hm
  | other plain _ ih => exact .other plain ih
  | block opens closes inside _ _ ih =>
    rw [List.cons_append, List.append_assoc, List.cons_append]
    exact .block opens closes inside ih

/-! ## Full blocks -/

/-- A node in which no block is without a branch and no branch without a node. -/
inductive Node.IsFull : Node → Prop where
  | atom (word : String) : IsFull (.atom word)
  | block {bracket : Bracket} {branches : List Branch} (some : branches ≠ [])
    (filled : ∀ branch ∈ branches, branch ≠ [])
    (each : ∀ branch ∈ branches, ∀ node ∈ branch, IsFull node) : IsFull (.block bracket branches)

/-- No branch of the block is empty, and all blocks within it are full. -/
def Block.IsFull (root : Block) : Prop :=
  ∀ branch ∈ root.branches, branch ≠ [] ∧ ∀ node ∈ branch, node.IsFull

namespace Outline

/-- The block under construction has no empty branch but the current one. -/
def Frame.IsFull (f : Frame) : Prop :=
  (∀ branch ∈ f.finished, branch ≠ [] ∧ ∀ node ∈ branch, node.IsFull) ∧
    ∀ node ∈ f.current, node.IsFull

theorem Frame.isFull_start (b : Bracket) (offset : Nat) : (Frame.start b offset).IsFull := by
  simp [Frame.start, Frame.IsFull]

theorem Frame.IsFull.push {f : Frame} {node : Node} (h : f.IsFull) (hn : node.IsFull) :
    (f.push node).IsFull := by
  refine ⟨h.1, fun other ho => ?_⟩
  rcases List.mem_append.mp ho with ho | ho
  · exact h.2 other ho
  · obtain rfl := List.mem_singleton.mp ho
    exact hn

theorem Frame.IsFull.branches {f : Frame} (h : f.IsFull) :
    ∀ branch ∈ f.branches, branch ≠ [] ∧ ∀ node ∈ branch, node.IsFull := by
  intro branch hb
  unfold Frame.branches at hb
  split at hb
  case isTrue => exact h.1 branch hb
  case isFalse some =>
    rcases List.mem_append.mp hb with hb | hb
    · exact h.1 branch hb
    · obtain rfl := List.mem_singleton.mp hb
      exact ⟨by simpa using some, h.2⟩

theorem Frame.IsFull.closeInto {f parent : Frame} (h : f.IsFull) (hp : parent.IsFull) :
    (f.closeInto parent).IsFull := by
  unfold Frame.closeInto
  split
  case isTrue => exact hp
  case isFalse some =>
    refine hp.push (.block (by simpa using some) (fun branch hb => ?_) fun branch hb => ?_)
    · exact (h.branches branch hb).1
    · exact (h.branches branch hb).2

/-- The same block, with more read into it. -/
structure Frame.Grows (f g : Frame) : Prop where
  bracket : g.bracket = f.bracket
  openedAt : g.openedAt = f.openedAt
  full : f.IsFull → g.IsFull

theorem Frame.Grows.refl (f : Frame) : f.Grows f :=
  ⟨rfl, rfl, id⟩

theorem Frame.Grows.trans {f g k : Frame} (h : f.Grows g) (hk : g.Grows k) : f.Grows k :=
  ⟨hk.bracket.trans h.bracket, hk.openedAt.trans h.openedAt, fun full => hk.full (h.full full)⟩

/-! ## Reading nested tokens -/

namespace Stack

theorem run_append (s : Stack) (tokens more : List Token) :
    s.run (tokens ++ more) = s.run tokens >>= fun next => next.run more := by
  induction tokens generalizing s with
  | nil => rfl
  | cons t tokens ih =>
    rw [List.cons_append, run, run]
    cases s.step t with
    | error fault => rfl
    | ok next => exact ih next

/-- Only a bracket changes which blocks are open. -/
theorem exists_step_of_plain {t : Token} (plain : t.isBracket = false) (s : Stack) :
    ∃ top, s.top.Grows top ∧ s.step t = .ok ⟨top, s.outer⟩ := by
  unfold Token.isBracket at plain
  unfold step
  cases kind : t.kind with
  | spaces | comment => exact ⟨s.top, .refl _, rfl⟩
  | branch | multiLineComment =>
    have grown : s.top.Grows s.top.nextBranch :=
      ⟨rfl, rfl, fun full => ⟨full.branches, by simp [Frame.nextBranch]⟩⟩
    exact ⟨s.top.nextBranch, grown, rfl⟩
  | literal | atom =>
    exact ⟨s.top.push (.atom t.text), ⟨rfl, rfl, fun full => full.push (.atom _)⟩, rfl⟩
  | opening b | closing b => simp [kind] at plain

/-- Nested tokens can be read, and leave open what was open. -/
theorem exists_run_of_isNested {tokens : List Token} (h : IsNested tokens) (s : Stack) :
    ∃ top, s.top.Grows top ∧ s.run tokens = .ok ⟨top, s.outer⟩ := by
  induction h generalizing s with
  | nil => exact ⟨s.top, .refl _, rfl⟩
  | other plain _ ih =>
    obtain ⟨next, grown, stepped⟩ := exists_step_of_plain plain s
    obtain ⟨top, more, ran⟩ := ih ⟨next, s.outer⟩
    exact ⟨top, grown.trans more, (run_cons stepped _).trans ran⟩
  | @block o c b inner rest opens closes _ _ ihInner ihRest =>
    have opened : s.step o = .ok ⟨.start b o.start, s.top :: s.outer⟩ := by
      simp only [step, opens]
    obtain ⟨inside, grown, ranInner⟩ := ihInner ⟨.start b o.start, s.top :: s.outer⟩
    -- The block that has been filled is the one on top, so the closing bracket is of its kind.
    have closed : Stack.step ⟨inside, s.top :: s.outer⟩ c =
        .ok ⟨inside.closeInto s.top, s.outer⟩ := by
      have same : inside.bracket = b := grown.bracket
      simp only [step, closes, close, same, if_true]
    have into : s.top.Grows (inside.closeInto s.top) := by
      refine ⟨?_, ?_, fun full => (grown.full (Frame.isFull_start b _)).closeInto full⟩ <;>
      · unfold Frame.closeInto
        split <;> rfl
    obtain ⟨top, more, ranRest⟩ := ihRest ⟨inside.closeInto s.top, s.outer⟩
    refine ⟨top, into.trans more, ?_⟩
    rw [run_cons opened, run_append, ranInner, Sequence.ok_bind, run_cons closed, ranRest]

end Stack

/-! ## What a stack says about the tokens read -/

/-- Where the tokens read so far lead to: behind each bracket that is open, and behind the start,
there are nested tokens up to the next open bracket. -/
inductive Stands : List Token → Stack → Prop where
  | root {tokens : List Token} {top : Frame} (h : IsNested tokens) : Stands tokens ⟨top, []⟩
  | inside {before inner : List Token} {o : Token} {top parent : Frame} {outer : List Frame}
    (h : Stands before ⟨parent, outer⟩) (opens : o.kind = .opening top.bracket)
    (place : o.start = top.openedAt) (hi : IsNested inner) :
    Stands (before ++ o :: inner) ⟨top, parent :: outer⟩

namespace Stands

variable {tokens : List Token} {s next : Stack}

/-- Nested tokens do not change which blocks are open. -/
theorem append {top grown : Frame} {outer : List Frame} (h : Stands tokens ⟨top, outer⟩)
    {more : List Token} (hm : IsNested more) (bracket : grown.bracket = top.bracket)
    (openedAt : grown.openedAt = top.openedAt) : Stands (tokens ++ more) ⟨grown, outer⟩ := by
  cases h with
  | root h => exact .root (h.append hm)
  | inside h opens place hi =>
    rw [List.append_assoc, List.cons_append]
    exact .inside h (bracket ▸ opens) (openedAt ▸ place) (hi.append hm)

theorem step {t : Token} (h : Stands tokens s) (stepped : s.step t = .ok next) :
    Stands (tokens ++ [t]) next := by
  cases plain : t.isBracket with
  | false =>
    obtain ⟨top, grown, ran⟩ := Stack.exists_step_of_plain plain s
    obtain rfl := Except.ok.inj (stepped.symm.trans ran)
    exact h.append (.other plain .nil) grown.bracket grown.openedAt
  | true =>
    unfold Token.isBracket at plain
    unfold Stack.step at stepped
    cases kind : t.kind with
    | branch | spaces | comment | multiLineComment | literal | atom => simp [kind] at plain
    | opening b =>
      simp only [kind] at stepped
      obtain rfl := Except.ok.inj stepped
      exact .inside h kind rfl .nil
    | closing b =>
      simp only [kind, Stack.close] at stepped
      cases h with
      | root => cases stepped
      | @inside before inner o top parent outer h opens place hi =>
        simp only at stepped
        split at stepped
        case isFalse => cases stepped
        case isTrue same =>
          obtain rfl := Except.ok.inj stepped
          have nested : IsNested (o :: (inner ++ [t])) := .block (same ▸ opens) kind hi .nil
          rw [List.append_assoc, List.cons_append]
          refine h.append nested ?_ ?_ <;>
          · unfold Frame.closeInto
            split <;> rfl

theorem run {more : List Token} {last : Stack} (h : Stands tokens s) (ran : s.run more = .ok last) :
    Stands (tokens ++ more) last := by
  induction more generalizing tokens s with
  | nil =>
    obtain rfl := Except.ok.inj ran
    rwa [List.append_nil]
  | cons t more ih =>
    obtain ⟨next, stepped, ran⟩ := Stack.exists_of_run_cons ran
    have := ih (h.step stepped) ran
    rwa [List.append_assoc, List.singleton_append] at this

theorem isNested {top : Frame} (h : Stands tokens ⟨top, []⟩) : IsNested tokens := by
  cases h with
  | root h => exact h

/-- The block on top was opened by the innermost open bracket. -/
theorem exists_isInnermost {top parent : Frame} {outer : List Frame}
    (h : Stands tokens ⟨top, parent :: outer⟩) :
    ∃ o, IsInnermost tokens o top.bracket ∧ o.start = top.openedAt := by
  cases h with
  | @inside before inner o _ _ _ h opens place hi =>
    exact ⟨o, ⟨before, inner, rfl, opens, hi⟩, place⟩

end Stands

namespace Stack

variable {tokens : List Token} {s : Stack}

theorem stands_of_run (ran : Stack.root.run tokens = .ok s) : Stands tokens s :=
  Stands.run (.root .nil) ran

/-- The innermost open bracket opened the block on top. -/
theorem exists_of_isInnermost {first : Stack} (ran : first.run tokens = .ok s) {o : Token}
    {b : Bracket} (h : IsInnermost tokens o b) :
    ∃ top parent outer, s = ⟨top, parent :: outer⟩ ∧ top.bracket = b ∧ top.openedAt = o.start := by
  obtain ⟨before, inner, rfl, opens, hi⟩ := h
  rw [run_append] at ran
  obtain ⟨around, -, ran⟩ := Sequence.exists_of_bind_eq_ok ran
  have opened : around.step o = .ok ⟨.start b o.start, around.top :: around.outer⟩ := by
    simp only [step, opens]
  obtain ⟨top, grown, filled⟩ :=
    exists_run_of_isNested hi ⟨.start b o.start, around.top :: around.outer⟩
  rw [run_cons opened, filled] at ran
  exact ⟨top, around.top, around.outer, (Except.ok.inj ran).symm, grown.bracket, grown.openedAt⟩

/-! ## Faults -/

/-- Reading stops at the first token that cannot be taken in. -/
theorem exists_of_run_eq_error {fault : Fault} (failed : s.run tokens = .error fault) :
    ∃ before t after mid, tokens = before ++ t :: after ∧ s.run before = .ok mid ∧
      mid.step t = .error fault := by
  induction tokens generalizing s with
  | nil => cases failed
  | cons t tokens ih =>
    rw [run] at failed
    cases stepped : s.step t with
    | error e =>
      simp only [stepped] at failed
      exact ⟨[], t, tokens, s, rfl, rfl, stepped.trans failed⟩
    | ok next =>
      simp only [stepped] at failed
      obtain ⟨before, t', after, mid, rfl, ran, stopped⟩ := ih failed
      exact ⟨t :: before, t', after, mid, rfl, (run_cons stepped before).trans ran, stopped⟩

/-- A token cannot be taken in if it is a closing bracket that does not match. -/
theorem step_eq_error_iff (ran : Stack.root.run tokens = .ok s) {t : Token} {fault : Fault} :
    s.step t = .error fault ↔ ∃ b, IsMismatch tokens t b ∧ fault = .unbalanced b t.start := by
  constructor
  · intro failed
    cases plain : t.isBracket with
    | false =>
      obtain ⟨top, -, stepped⟩ := exists_step_of_plain plain s
      cases failed.symm.trans stepped
    | true =>
      unfold Token.isBracket at plain
      unfold step at failed
      cases kind : t.kind with
      | branch | spaces | comment | multiLineComment | literal | atom => simp [kind] at plain
      | opening b => simp [kind] at failed
      | closing b =>
        simp only [kind, close] at failed
        refine ⟨b, ⟨kind, fun o other innermost => ?_⟩, ?_⟩
        · rintro rfl
          obtain ⟨top, parent, outer, rfl, same, -⟩ := exists_of_isInnermost ran innermost
          simp [same] at failed
        · split at failed
          · exact (Except.error.inj failed).symm
          · split at failed
            · cases failed
            · exact (Except.error.inj failed).symm
  · rintro ⟨b, ⟨kind, other⟩, rfl⟩
    simp only [step, kind, close]
    have stands := stands_of_run ran
    obtain ⟨top, outer⟩ := s
    cases outer with
    | nil => rfl
    | cons parent outer =>
      obtain ⟨o, innermost, -⟩ := stands.exists_isInnermost
      exact if_neg (other o _ innermost)

/-- Tokens can be read if all closing brackets match. -/
theorem isMatched_iff : IsMatched tokens ↔ ∃ s, Stack.root.run tokens = .ok s := by
  constructor
  · intro matched
    cases ran : Stack.root.run tokens with
    | ok s => exact ⟨s, rfl⟩
    | error fault =>
      obtain ⟨before, t, after, mid, rfl, ran, failed⟩ := exists_of_run_eq_error ran
      obtain ⟨b, mismatch, -⟩ := (step_eq_error_iff ran).mp failed
      exact absurd mismatch (matched before t after b rfl)
  · rintro ⟨s, ran⟩ before t after b rfl mismatch
    rw [run_append] at ran
    obtain ⟨mid, ranBefore, ran⟩ := Sequence.exists_of_bind_eq_ok ran
    have failed := (step_eq_error_iff ranBefore).mpr ⟨b, mismatch, rfl⟩
    rw [run, failed] at ran
    cases ran

/-- Reading fails at the first closing bracket that does not match. -/
theorem run_eq_error_iff {fault : Fault} : Stack.root.run tokens = .error fault ↔
    ∃ before t after b, tokens = before ++ t :: after ∧ IsMatched before ∧ IsMismatch before t b ∧
      fault = .unbalanced b t.start := by
  constructor
  · intro failed
    obtain ⟨before, t, after, mid, rfl, ran, failed⟩ := exists_of_run_eq_error failed
    obtain ⟨b, mismatch, rfl⟩ := (step_eq_error_iff ran).mp failed
    exact ⟨before, t, after, b, rfl, isMatched_iff.mpr ⟨mid, ran⟩, mismatch, rfl⟩
  · rintro ⟨before, t, after, b, rfl, matched, mismatch, rfl⟩
    obtain ⟨mid, ran⟩ := isMatched_iff.mp matched
    have failed := (step_eq_error_iff ran).mpr ⟨b, mismatch, rfl⟩
    rw [run_append, ran, Sequence.ok_bind, run, failed]

end Stack

/-! ## Outlines of tokens -/

/-- Nested tokens have a full root block. -/
theorem exists_ofTokens_of_isNested {tokens : List Token} (h : IsNested tokens) :
    ∃ root, ofTokens tokens = .ok root ∧ root.bracket = .inline ∧ root.IsFull := by
  obtain ⟨top, grown, ran⟩ := Stack.exists_run_of_isNested h .root
  refine ⟨⟨top.bracket, top.branches⟩, ?_, grown.bracket, ?_⟩
  · rw [ofTokens, ran]
    rfl
  · exact (grown.full (Frame.isFull_start _ _)).branches

theorem ofTokens_eq_error_iff {tokens : List Token} {fault : Fault} :
    ofTokens tokens = .error fault ↔
      (∃ before t after b, tokens = before ++ t :: after ∧ IsMatched before ∧
        IsMismatch before t b ∧ fault = .unbalanced b t.start) ∨
      (IsMatched tokens ∧ ∃ o b, IsInnermost tokens o b ∧ fault = .unclosed b o.start) := by
  rw [← Stack.run_eq_error_iff, Stack.isMatched_iff, ofTokens]
  cases ran : Stack.root.run tokens with
  | error e => simp
  | ok s =>
    have stands := Stack.stands_of_run ran
    obtain ⟨top, outer⟩ := s
    simp only [reduceCtorEq, false_or, Except.ok.injEq, exists_eq', true_and]
    constructor
    · intro failed
      cases outer with
      | nil => cases failed
      | cons parent outer =>
        obtain ⟨o, innermost, place⟩ := stands.exists_isInnermost
        exact ⟨o, _, innermost, place ▸ (Except.error.inj failed).symm⟩
    · rintro ⟨o, b, innermost, rfl⟩
      obtain ⟨_, parent, around, same, rfl, place⟩ := Stack.exists_of_isInnermost ran innermost
      obtain ⟨rfl, rfl⟩ := Stack.mk.inj same
      rw [Stack.finish, place]

theorem isNested_of_ofTokens {tokens : List Token} {root : Block}
    (laid : ofTokens tokens = .ok root) : IsNested tokens := by
  rw [ofTokens] at laid
  cases ran : Stack.root.run tokens with
  | error e => simp [ran] at laid
  | ok s =>
    have stands := Stack.stands_of_run ran
    obtain ⟨top, outer⟩ := s
    cases outer with
    | nil => exact stands.isNested
    | cons parent outer => simp [ran, Stack.finish] at laid

end Outline

theorem outline_eq_ok_iff {source : String} {tokens : List Token} {root : Block} :
    outline source tokens = .ok root ↔ Outline.ofTokens tokens = .ok root := by
  rw [outline]
  cases Outline.ofTokens tokens <;> simp [Except.mapError]

/-- The root block is inline, and every block in it is full. -/
theorem isFull_of_outline {source : String} {tokens : List Token} {root : Block}
    (laid : outline source tokens = .ok root) : root.bracket = .inline ∧ root.IsFull := by
  have laid := outline_eq_ok_iff.mp laid
  obtain ⟨found, e, inline, full⟩ :=
    Outline.exists_ofTokens_of_isNested (Outline.isNested_of_ofTokens laid)
  obtain rfl := Except.ok.inj (laid.symm.trans e)
  exact ⟨inline, full⟩

/-! ## Main statement -/

/-- Tokens have an outline just if they are nested. Otherwise the error is at the first closing
bracket that does not close the innermost open block, and if there is none, at the innermost block
that is still open at the end. In an outline every branch has a node, and every block below the root
a branch. -/
theorem outline_spec (source : String) (tokens : List Token) :
    ((∃ root, outline source tokens = .ok root) ↔ IsNested tokens) ∧
    (∀ e, outline source tokens = .error e ↔
      (∃ before t after b, tokens = before ++ t :: after ∧ IsMatched before ∧
        IsMismatch before t b ∧
          e = .unbalanced b.closing (Position.ofOffset source t.start)) ∨
      (IsMatched tokens ∧ ∃ o b, IsInnermost tokens o b ∧
        e = .unclosed b.opening (Position.ofOffset source o.start))) ∧
    ∀ root, outline source tokens = .ok root → root.bracket = .inline ∧ root.IsFull := by
  have refused : ∀ e, outline source tokens = .error e ↔
      ∃ fault, Outline.ofTokens tokens = .error fault ∧ e = fault.error source := by
    intro e
    rw [outline]
    cases Outline.ofTokens tokens <;> simp [Except.mapError, eq_comm]
  refine ⟨⟨?_, fun nested => ?_⟩, fun e => ?_, fun root => isFull_of_outline⟩
  · rintro ⟨root, laid⟩
    exact Outline.isNested_of_ofTokens (outline_eq_ok_iff.mp laid)
  · obtain ⟨root, laid, -⟩ := Outline.exists_ofTokens_of_isNested nested
    exact ⟨root, outline_eq_ok_iff.mpr laid⟩
  · rw [refused]
    simp only [Outline.ofTokens_eq_error_iff]
    constructor
    · rintro ⟨_, ⟨before, t, after, b, split, matched, mismatch, rfl⟩ |
        ⟨matched, o, b, innermost, rfl⟩, rfl⟩
      · exact .inl ⟨before, t, after, b, split, matched, mismatch, rfl⟩
      · exact .inr ⟨matched, o, b, innermost, rfl⟩
    · rintro (⟨before, t, after, b, split, matched, mismatch, rfl⟩ |
        ⟨matched, o, b, innermost, rfl⟩)
      · exact ⟨_, .inl ⟨before, t, after, b, split, matched, mismatch, rfl⟩, rfl⟩
      · exact ⟨_, .inr ⟨matched, o, b, innermost, rfl⟩, rfl⟩

end ConceptSpace.Source
