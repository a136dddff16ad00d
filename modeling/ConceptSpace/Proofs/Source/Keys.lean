import ConceptSpace.Proofs.Sequence.Traversal
import ConceptSpace.Proofs.Source.Readings

/-!
# Keys as source text

The key of a clean concept is source text that has the concept as its only reading. The main
statement is `ofKey_key`; from it follows that keys tell clean concepts apart (`Clean.key_inj`),
which the storage and the index rely on.
-/

namespace ConceptSpace

namespace Concept

open Source (Spells States)

/-! ## The outline of a key -/

mutual

/-- The node that a concept is read from as a part of a compound. -/
def toNode : Concept → Source.Node
  | .atom word => .atom word
  | .compound parts => .block .nested [toNodes parts]

/-- The nodes that parts are read from. -/
def toNodes : List Concept → List Source.Node
  | [] => []
  | part :: more => toNode part :: toNodes more

end

/-- The branch that a concept is read from on its own. -/
def toBranch : Concept → Source.Branch
  | .atom word => [.atom word]
  | .compound parts => toNodes parts

theorem toNodes_eq_map (cs : List Concept) : toNodes cs = cs.map toNode := by
  induction cs with
  | nil => rfl
  | cons c cs ih => simp [toNodes, ih]

/-- Parts with blanks between them spell their nodes. -/
theorem spells_spaced {ps : List Concept} (nonempty : ps ≠ [])
    (h : ∀ p ∈ ps, Spells p.asPart.toList [p.toNode]) :
    Spells (spaced ps).toList (toNodes ps) := by
  induction ps with
  | nil => exact absurd rfl nonempty
  | cons p ps ih =>
    cases ps with
    | nil => exact h p (by simp)
    | cons q ps =>
      have first : Spells p.asPart.toList [p.toNode] := h p (by simp)
      have rest := ih (by simp) fun r hr => h r (List.mem_cons_of_mem p hr)
      have e : (spaced (p :: q :: ps)).toList =
          p.asPart.toList ++ ' ' :: (spaced (q :: ps)).toList := by
        simp [spaced_cons_cons]
      rw [e]
      exact first.append rest

theorem Clean.ne_nil {ps : List Concept} (h : Clean (.compound ps)) : ps ≠ [] := by
  rintro rfl
  exact absurd h.two_le_length (by simp)

/-- The concepts whose text is cut into their words, whatever the order of members. -/
inductive Readable : Concept → Prop where
  /-- A word that is one token. -/
  | atom {word : String} (h : Source.isToken word = true) : Readable (.atom word)
  /-- At least one part. -/
  | compound {ps : List Concept} (nonempty : ps ≠ []) (parts : ∀ p ∈ ps, Readable p) :
    Readable (.compound ps)

theorem Clean.readable {c : Concept} (h : c.Clean) : c.Readable := by
  induction c with
  | atom word => exact .atom (clean_atom_iff.mp h)
  | compound ps ih => exact .compound h.ne_nil fun p hp => ih p hp (h.of_mem hp)

/-- A readable concept as a part spells its node. -/
theorem Readable.spells_asPart {c : Concept} (h : c.Readable) :
    Spells c.asPart.toList [c.toNode] := by
  induction h with
  | atom h => exact Spells.word h
  | @compound ps nonempty parts ih =>
    have inner : Spells (spaced ps).toList (toNodes ps) := spells_spaced nonempty ih
    have e : (asPart (.compound ps)).toList = '[' :: ((spaced ps).toList ++ [']']) := by
      simp [asPart]
    rw [e, toNode]
    exact (inner.branch (by simpa [toNodes_eq_map] using nonempty)).nested (by simp)

theorem Clean.spells_asPart {c : Concept} (h : c.Clean) : Spells c.asPart.toList [c.toNode] :=
  h.readable.spells_asPart

theorem Clean.spells_key {c : Concept} (h : c.Clean) : Spells c.key.toList c.toBranch := by
  cases c with
  | atom word => exact Spells.word (clean_atom_iff.mp h)
  | compound ps => exact spells_spaced h.ne_nil fun p hp => (h.of_mem hp).spells_asPart

theorem toNode_inj {c d : Concept} (h : c.toNode = d.toNode) : c = d := by
  induction c generalizing d with
  | atom word =>
    cases d with
    | atom other => rw [Source.Node.atom.inj h]
    | compound => exact absurd h nofun
  | compound ps ih =>
    cases d with
    | atom => exact absurd h nofun
    | compound qs =>
      have nodes : ps.map toNode = qs.map toNode := by
        simpa [toNode, toNodes_eq_map] using h
      exact congrArg compound (Sequence.eq_of_map_eq (fun p hp q _ => ih p hp) nodes)

/-- As parts, readable concepts are told apart by their texts. -/
theorem Readable.asPart_inj {c d : Concept} (hc : c.Readable) (hd : d.Readable) :
    c.asPart = d.asPart ↔ c = d := by
  refine ⟨fun e => ?_, fun e => e ▸ rfl⟩
  obtain ⟨tokens, cut, laid⟩ := Source.outline_of_spells (hc.spells_asPart.branch (by simp))
  obtain ⟨others, cut', laid'⟩ := Source.outline_of_spells (hd.spells_asPart.branch (by simp))
  rw [e] at cut laid
  obtain rfl : tokens = others := Except.ok.inj (cut.symm.trans cut')
  have same := Except.ok.inj (laid.symm.trans laid')
  exact toNode_inj (by simpa using same)

/-! ## Reading it back -/

theorem toBranch_ne_nil {c : Concept} (h : c.Clean) : c.toBranch ≠ [] := by
  cases c with
  | atom word => simp [toBranch]
  | compound ps => simpa [toBranch, toNodes_eq_map] using h.ne_nil

theorem states_toNodes {ps : List Concept} (nonempty : ps ≠ [])
    (h : ∀ p ∈ ps, p.toNode.Names p) : States (toNodes ps) ps := by
  refine States.of_forall ?_ (by simpa [toNodes_eq_map] using nonempty)
  rw [toNodes_eq_map, List.forall₂_map_left_iff, List.forall₂_same]
  exact h

theorem Clean.names_toNode {c : Concept} (h : c.Clean) : c.toNode.Names c := by
  induction c with
  | atom word => simp [toNode, Source.Node.Names]
  | compound ps ih =>
    have stated : States (toNodes ps) ps :=
      states_toNodes h.ne_nil fun p hp => ih p hp (h.of_mem hp)
    rw [toNode]
    exact Source.Node.names_nested stated h.ofParts?_eq

/-- The branch of a clean concept states parts that make the concept. -/
theorem Clean.states_toBranch {c : Concept} (h : c.Clean) :
    ∃ parts, States c.toBranch parts ∧ ofParts? parts = some c := by
  cases c with
  | atom word =>
    exact ⟨[.atom word], States.of_forall (.cons h.names_toNode .nil) (by simp [toBranch]), rfl⟩
  | compound ps =>
    exact ⟨ps, states_toNodes h.ne_nil fun p hp => (h.of_mem hp).names_toNode, h.ofParts?_eq⟩

@[simp] theorem distinct_singleton (c : Concept) : distinct [c] = [c] := by
  simp [distinct, Sequence.distinctBy, Sequence.distinctFrom]

theorem Clean.denote_key {c : Concept} (h : c.Clean) : Source.denote [] c.key = .ok [c] := by
  obtain ⟨parts, stated, made⟩ := h.states_toBranch
  rw [Source.denote_of_states (h.spells_key.branch (toBranch_ne_nil h)) (.cons stated .nil)]
  simp [made]

/-- The key of a clean concept names the concept. -/
theorem Clean.ofKey_key {c : Concept} (h : c.Clean) : Source.ofKey c.key = .ok c := by
  rw [Source.ofKey, h.denote_key]
  rfl

/-- Keys tell clean concepts apart. -/
theorem Clean.key_inj {c d : Concept} (hc : c.Clean) (hd : d.Clean) : c.key = d.key ↔ c = d := by
  constructor
  · intro e
    have := hc.ofKey_key
    rw [e, hd.ofKey_key] at this
    exact (Except.ok.inj this).symm
  · rintro rfl
    rfl

end Concept

/-! ## Main statement -/

namespace Source

/-- The key of a concept built from clean words denotes the concept itself, tree for tree; so
concepts of this kind have the same key only if they are the same. -/
theorem ofKey_key_and_key_eq_iff {c d : Concept} (hc : c.Clean) (hd : d.Clean) :
    ofKey c.key = .ok c ∧ ofKey d.key = .ok d ∧ (c.key = d.key ↔ c = d) :=
  ⟨hc.ofKey_key, hd.ofKey_key, hc.key_inj hd⟩

/-- A set within a set, beside a literal with brackets, a comma and a line end. -/
private def nestedSet : Concept :=
  .compound [.atom ":", .compound [.atom ":", .atom "x", .atom "y"], .atom "<<b, [c]\n>>"]

/-- The same words without the inner set. -/
private def flatSet : Concept :=
  .compound [.atom ":", .atom ":", .atom "<<b, [c]\n>>", .atom "x", .atom "y"]

theorem nestedSet_key_reads_back :
    nestedSet.Clean ∧ flatSet.Clean ∧ ofKey ": [: x y] <<b, [c]\n>>" = .ok nestedSet ∧
      nestedSet.key ≠ flatSet.key := by
  have hc : nestedSet.Clean := by decide +kernel
  have hd : flatSet.Clean := by decide +kernel
  have key : nestedSet.key = ": [: x y] <<b, [c]\n>>" := by decide +kernel
  have differ : nestedSet ≠ flatSet := by decide +kernel
  obtain ⟨read, -, iff⟩ := ofKey_key_and_key_eq_iff hc hd
  exact ⟨hc, hd, key ▸ read, fun e => differ (iff.mp e)⟩

end Source

end ConceptSpace
