import ConceptSpace.Source.Token

/-!
# Outlines

The block structure of source text: blocks hold alternative branches, a branch holds words and
blocks in order. `outline` builds it from tokens with a stack of open blocks. A branch without a
node is dropped, and so is a block without a branch.
-/

namespace ConceptSpace.Source

/-- A member of a branch. -/
inductive Node where
  /-- A word. -/
  | atom (word : String)
  /-- A block with its branches. -/
  | block (bracket : Bracket) (branches : List (List Node))

/-- One alternative of a block. -/
abbrev Branch := List Node

/-- A block with its alternatives. -/
structure Block where
  /-- How the alternatives combine with what surrounds the block. -/
  bracket : Bracket
  /-- The alternatives. -/
  branches : List Branch

namespace Outline

/-- A block under construction. -/
structure Frame where
  /-- The kind of the block. -/
  bracket : Bracket
  /-- The byte offset of the opening bracket. -/
  openedAt : Nat
  /-- The branches before the current one. -/
  finished : List Branch
  /-- The branch under construction. -/
  current : Branch

namespace Frame

/-- A block that has just been opened. -/
def start (bracket : Bracket) (openedAt : Nat) : Frame :=
  ⟨bracket, openedAt, [], []⟩

/-- Appends a node to the current branch. -/
def push (f : Frame) (node : Node) : Frame :=
  { f with current := f.current ++ [node] }

/-- The branches so far, without an empty one at the end. -/
def branches (f : Frame) : List Branch :=
  if f.current.isEmpty then f.finished else f.finished ++ [f.current]

/-- Starts another branch, unless the current one is still empty. -/
def nextBranch (f : Frame) : Frame :=
  { f with finished := f.branches, current := [] }

/-- The block as a node of the branch around it; an empty block leaves no trace. -/
def closeInto (f parent : Frame) : Frame :=
  if f.branches.isEmpty then parent else parent.push (.block f.bracket f.branches)

end Frame

/-- The open blocks: the innermost one, and those around it from the inside out. -/
structure Stack where
  /-- The innermost open block. -/
  top : Frame
  /-- The blocks around it. The last one is the root. -/
  outer : List Frame

/-- What is wrong with the brackets of a text. -/
inductive Fault where
  /-- A closing bracket that does not close the innermost open block. -/
  | unbalanced (bracket : Bracket) (offset : Nat)
  /-- A block that is still open at the end. -/
  | unclosed (bracket : Bracket) (offset : Nat)
  deriving DecidableEq, Repr

namespace Stack

/-- Nothing but the root is open. -/
def root : Stack :=
  ⟨.start .inline 0, []⟩

/-- Closes the innermost block, which has to be of the kind given and not the root. -/
def close (s : Stack) (bracket : Bracket) (offset : Nat) : Except Fault Stack :=
  match s.outer with
  | [] => .error (.unbalanced bracket offset)
  | parent :: outer =>
    if s.top.bracket = bracket then .ok ⟨s.top.closeInto parent, outer⟩
    else .error (.unbalanced bracket offset)

/-- Takes in one token. -/
def step (s : Stack) (token : Token) : Except Fault Stack :=
  match token.kind with
  | .spaces | .comment => .ok s
  | .branch | .multiLineComment => .ok { s with top := s.top.nextBranch }
  | .atom | .literal => .ok { s with top := s.top.push (.atom token.text) }
  | .opening bracket => .ok ⟨.start bracket token.start, s.top :: s.outer⟩
  | .closing bracket => s.close bracket token.start

/-- Takes in tokens from left to right. -/
def run (s : Stack) : List Token → Except Fault Stack
  | [] => .ok s
  | token :: tokens =>
    match s.step token with
    | .error fault => .error fault
    | .ok next => next.run tokens

/-- The root block, if nothing else is open. -/
def finish (s : Stack) : Except Fault Block :=
  match s.outer with
  | [] => .ok ⟨s.top.bracket, s.top.branches⟩
  | _ :: _ => .error (.unclosed s.top.bracket s.top.openedAt)

end Stack

/-- The root block that tokens denote. -/
def ofTokens (tokens : List Token) : Except Fault Block :=
  match Stack.root.run tokens with
  | .error fault => .error fault
  | .ok stack => stack.finish

/-- The error that shows a fault at its place in the source. -/
def Fault.error (source : String) : Fault → Error
  | .unbalanced bracket offset => .unbalanced bracket.closing (Position.ofOffset source offset)
  | .unclosed bracket offset => .unclosed bracket.opening (Position.ofOffset source offset)

end Outline

/-- The block structure of source text that has been cut into tokens. The root is an inline
block. -/
def outline (source : String) (tokens : List Token) : Except Error Block :=
  (Outline.ofTokens tokens).mapError (Outline.Fault.error source)

end ConceptSpace.Source
