import ConceptSpace.Proofs.Storage.Families

/-!
# What storage keys name

A storage key names a fact, an edge, an index entry, a counter, or the text attached to a fact.
Whatever words the concepts consist of, the key tells what it was made of: it starts with the stem
of its own family and of no other (`Name.stem_isPrefix_iff`), and names with the same key agree in
all fields (`Name.key_eq_iff`). So a listing of a stem, of the entries under a mask or of the edges
from a part gives nothing else (`key_determines_name`).
-/

namespace ConceptSpace

/-! ## The size of parts -/

namespace Concept

/-- A part is not longer than the text that it stands in. -/
theorem utf8ByteSize_asPart_le_spaced {ps : List Concept} {p : Concept} (hp : p ∈ ps) :
    p.asPart.utf8ByteSize ≤ (spaced ps).utf8ByteSize := by
  induction ps with
  | nil => simp at hp
  | cons q ps ih =>
    cases ps with
    | nil =>
      obtain rfl : p = q := by simpa using hp
      exact Nat.le_refl _
    | cons r ps =>
      rw [spaced_cons_cons, String.utf8ByteSize_append, String.utf8ByteSize_append]
      rcases List.mem_cons.mp hp with rfl | hp
      · omega
      · have := ih hp
        omega

theorem utf8ByteSize_key_le_asPart (c : Concept) : c.key.utf8ByteSize ≤ c.asPart.utf8ByteSize := by
  cases c with
  | atom => exact Nat.le_refl _
  | compound ps =>
    rw [asPart, String.utf8ByteSize_append, String.utf8ByteSize_append, key]
    omega

theorem utf8ByteSize_key_le_of_mem_parts {c p : Concept} (hp : p ∈ c.parts) :
    p.key.utf8ByteSize ≤ c.key.utf8ByteSize := by
  cases c with
  | atom => simp at hp
  | compound ps =>
    exact Nat.le_trans (utf8ByteSize_key_le_asPart p) (utf8ByteSize_asPart_le_spaced hp)

/-- There is a blank between any two neighbours, so that a key has an offset for each part. -/
theorem length_parts_le_utf8ByteSize (c : Concept) : c.parts.length ≤ c.key.utf8ByteSize + 1 := by
  have spaces : ∀ ps : List Concept, ps.length ≤ (spaced ps).utf8ByteSize + 1 := by
    intro ps
    induction ps with
    | nil => exact Nat.zero_le _
    | cons p ps ih =>
      cases ps with
      | nil => simp
      | cons q ps =>
        have blank : " ".utf8ByteSize = 1 := by decide
        rw [spaced_cons_cons, String.utf8ByteSize_append, String.utf8ByteSize_append, blank]
        simp only [List.length_cons] at ih ⊢
        omega
  cases c with
  | atom => simp
  | compound ps => exact spaces ps

end Concept

namespace Storage.Key

/-! ## Names -/

/-- The families of storage keys. -/
inductive Family where
  /-- Stored facts. -/
  | fact
  /-- Edges from parts to the concepts around them. -/
  | edge
  /-- Index entries. -/
  | entry
  /-- Counters of masks. -/
  | counter
  /-- Texts attached to facts. -/
  | text
  deriving DecidableEq, Repr

/-- What the keys of a family start with. -/
def Family.stem : Family → String
  | .fact => factStem
  | .edge => containmentStem
  | .entry => maskMatchStem
  | .counter => maskCountStem
  | .text => attachedStem

/-- What a storage key is made of. -/
inductive Name where
  /-- A fact is stored. -/
  | fact (c : Concept)
  /-- A part stands at a position of a concept. -/
  | edge (part : Concept) (position : Nat) (container : Concept)
  /-- A fact has values at the variables of a mask. -/
  | entry (mask : Concept) (values : List Concept)
  /-- A mask has a counter. -/
  | counter (mask : Concept)
  /-- A fact of a space has a text. -/
  | text (space : String) (c : Concept)

namespace Name

/-- The family of a name. -/
def family : Name → Family
  | .fact _ => .fact
  | .edge _ _ _ => .edge
  | .entry _ _ => .entry
  | .counter _ => .counter
  | .text _ _ => .text

/-- The storage key of a name. -/
def key : Name → String
  | .fact c => Key.fact c
  | .edge part position container => containment part position container
  | .entry mask values => maskMatch mask values
  | .counter mask => maskCount mask
  | .text space c => attached space c

/-- Two names of one family that agree in all fields, concepts being told apart by their keys. -/
def Agrees : Name → Name → Prop
  | .fact c, .fact d => c.key = d.key
  | .edge p i c, .edge q j d => p.key = q.key ∧ i = j ∧ c.key = d.key
  | .entry m vs, .entry n ws => m.key = n.key ∧ vs.map Concept.key = ws.map Concept.key
  | .counter m, .counter n => m.key = n.key
  | .text s c, .text r d => s = r ∧ c.key = d.key
  | _, _ => False

/-! ## Stems -/

theorem exists_key_eq (n : Name) : ∃ rest, n.key = n.family.stem ++ rest := by
  cases n with
  | fact => exact ⟨_, rfl⟩
  | edge => exact ⟨_, by simp only [key, containment, String.append_assoc]; rfl⟩
  | entry =>
    exact ⟨_, by simp only [key, maskMatch, maskMatches, String.append_assoc]; rfl⟩
  | counter => exact ⟨_, rfl⟩
  | text => exact ⟨_, by simp only [key, attached, String.append_assoc]; rfl⟩

/-- No stem starts another one. -/
theorem eq_of_stem_isPrefix_stem {f g : Family} (h : f.stem.toList <+: g.stem.toList) : f = g := by
  revert h
  cases f <;> cases g <;> decide

/-- A key starts with the stem of its own family and of no other. -/
theorem stem_isPrefix_iff {f : Family} {n : Name} :
    f.stem.toList <+: n.key.toList ↔ n.family = f := by
  obtain ⟨rest, e⟩ := n.exists_key_eq
  rw [e]
  constructor
  · intro h
    by_contra other
    rw [← String.append_empty (s := f.stem)] at h
    exact not_prefix_append (fun h => other (eq_of_stem_isPrefix_stem h).symm)
      (fun h => other (eq_of_stem_isPrefix_stem h)) _ _ h
  · rintro rfl
    rw [String.toList_append]
    exact List.prefix_append _ _

/-! ## Fields -/

theorem toList_attached (space : String) (c : Concept) :
    (attached space c).toList =
      attachedStem.toList ++ (space.toList ++ '/' :: (encode c.key).toList) := by
  simp [attached]

theorem attached_inj {s r : String} {c d : Concept} (h : attached s c = attached r d) :
    s = r ∧ c.key = d.key := by
  have h := congrArg String.toList h
  rw [toList_attached, toList_attached] at h
  -- The name of a space may hold slashes, the encoded key behind the last of them does not.
  have turned : (encode c.key).toList.reverse ++ '/' :: s.toList.reverse =
      (encode d.key).toList.reverse ++ '/' :: r.toList.reverse := by
    simpa using congrArg List.reverse (List.append_cancel_left h)
  have slash (key : String) : '/' ∉ (encode key).toList.reverse := fun m =>
    slash_not_mem_encode key (List.mem_reverse.mp m)
  obtain ⟨key, space⟩ := fields_inj (slash _) (slash _) turned
  exact ⟨String.toList_inj.mp (List.reverse_inj.mp space),
    encode_inj.mp (String.toList_inj.mp (List.reverse_inj.mp key))⟩

theorem agrees_of_key_eq {n m : Name} (h : n.key = m.key) : n.Agrees m := by
  have family : m.family = n.family :=
    stem_isPrefix_iff.mp (h ▸ stem_isPrefix_iff.mpr rfl)
  cases n <;> cases m <;> try contradiction
  case fact => exact fact_inj h
  case edge => exact containment_inj h
  case entry => exact maskMatch_inj h
  case counter => exact maskCount_inj h
  case text => exact attached_inj h

theorem key_eq_of_agrees {n m : Name} (h : n.Agrees m) : n.key = m.key := by
  cases n <;> cases m <;> try exact h.elim
  case fact c d =>
    have h : c.key = d.key := h
    simp only [key, Key.fact, h]
  case edge p i c q j d =>
    obtain ⟨part, rfl, container⟩ : p.key = q.key ∧ i = j ∧ c.key = d.key := h
    simp only [key, containment, part, container]
  case entry m vs n ws =>
    obtain ⟨mask, values⟩ : m.key = n.key ∧ vs.map Concept.key = ws.map Concept.key := h
    have encoded := congrArg (List.map encode) values
    rw [List.map_map, List.map_map] at encoded
    simp only [key, maskMatch, maskMatches, mask]
    exact congrArg (fun fields => _ ++ ";".intercalate fields) encoded
  case counter m n =>
    have h : m.key = n.key := h
    simp only [key, maskCount, h]
  case text s c r d =>
    obtain ⟨rfl, fact⟩ : s = r ∧ c.key = d.key := h
    simp only [key, attached, fact]

/-- Keys tell names apart. -/
theorem key_eq_iff {n m : Name} : n.key = m.key ↔ n.Agrees m :=
  ⟨agrees_of_key_eq, key_eq_of_agrees⟩

/-! ## Listings of a mask and of a part -/

/-- The keys that start like the entries under a mask are these entries. -/
theorem maskMatches_isPrefix_iff {mask : Concept} {n : Name} :
    (maskMatches mask).toList <+: n.key.toList ↔
      ∃ m values, n = .entry m values ∧ m.key = mask.key := by
  constructor
  · intro h
    have stem : Family.entry.stem.toList <+: n.key.toList := by
      refine List.IsPrefix.trans ?_ h
      simp [Family.stem, maskMatches]
    have family := stem_isPrefix_iff.mp stem
    cases n <;> try contradiction
    case entry m values => exact ⟨m, values, rfl, (maskMatches_prefix_iff.mp h).symm⟩
  · rintro ⟨m, values, rfl, h⟩
    exact maskMatches_prefix_iff.mpr h.symm

/-- The keys that start like the edges from a part are these edges. -/
theorem containmentsOf_isPrefix_iff {part : Concept} {n : Name} :
    (containmentsOf part).toList <+: n.key.toList ↔
      ∃ p i c, n = .edge p i c ∧ p.key = part.key := by
  constructor
  · intro h
    have stem : Family.edge.stem.toList <+: n.key.toList := by
      refine List.IsPrefix.trans ?_ h
      simp [Family.stem, containmentsOf]
    have family := stem_isPrefix_iff.mp stem
    cases n <;> try contradiction
    case edge p i c => exact ⟨p, i, c, rfl, (containmentsOf_prefix_iff.mp h).symm⟩
  · rintro ⟨p, i, c, rfl, h⟩
    exact containmentsOf_prefix_iff.mpr h.symm

end Name

/-! ## Reading edges -/

/-- The edges from the parts of a concept read back. -/
theorem readContainment_of_mem_parts {p c : Concept} {i : Nat} (h : FitsMemory c.key)
    (hp : c.parts[i]? = some p) : readContainment (containment p i c) = .ok ⟨p.key, i, c.key⟩ := by
  obtain ⟨low, rfl⟩ := List.getElem?_eq_some_iff.mp hp
  have position : i < Text.wordCount := by
    have := c.length_parts_le_utf8ByteSize
    have : c.key.utf8ByteSize < Text.wordCount := h
    omega
  have part : FitsMemory c.parts[i].key :=
    Nat.lt_of_le_of_lt (Concept.utf8ByteSize_key_le_of_mem_parts (List.getElem_mem low)) h
  exact readContainment_containment part position h

theorem map_readContainment_containments {c : Concept} (h : FitsMemory c.key) :
    (containments c).map readContainment =
      c.parts.mapIdx fun i p => .ok ⟨p.key, i, c.key⟩ := by
  refine List.ext_getElem (by simp [containments]) fun i low _ => ?_
  have low : i < c.parts.length := by simpa [containments] using low
  simpa [containments] using readContainment_of_mem_parts h (List.getElem?_eq_getElem low)

/-! ## Keys determine names -/

/-- A storage key determines what it was made of, whatever words the concepts consist of. It starts
with the stem of its own family only, with what the entries under a mask start with only if it is
such an entry, and with what the edges from a part start with only if it is such an edge. As far as
memory can hold the keys of the concepts, the readers of storage keys give just these keys. -/
theorem key_determines_name :
    (∀ n m : Name, n.key = m.key ↔ n.Agrees m) ∧
    (∀ (f : Family) (n : Name), f.stem.toList <+: n.key.toList ↔ n.family = f) ∧
    (∀ (mask : Concept) (n : Name), (maskMatches mask).toList <+: n.key.toList ↔
      ∃ m values, n = .entry m values ∧ m.key = mask.key) ∧
    (∀ (part : Concept) (n : Name), (containmentsOf part).toList <+: n.key.toList ↔
      ∃ p i c, n = .edge p i c ∧ p.key = part.key) ∧
    (∀ c : Concept, FitsMemory c.key → readFact (fact c) = .ok c.key ∧
      (containments c).map readContainment = c.parts.mapIdx fun i p => .ok ⟨p.key, i, c.key⟩) ∧
    ∀ (mask : Concept) (values : List Concept), (∀ value ∈ values, FitsMemory value.key) →
      readMaskMatch (maskMatch mask values) = .ok (values.map Concept.key) :=
  ⟨fun _ _ => Name.key_eq_iff, fun _ _ => Name.stem_isPrefix_iff,
    fun _ _ => Name.maskMatches_isPrefix_iff, fun _ _ => Name.containmentsOf_isPrefix_iff,
    fun _ h => ⟨readFact_fact h, map_readContainment_containments h⟩,
    fun _ _ h => readMaskMatch_maskMatch h⟩

/-- The characters between the fields may stand in words. -/
def markedWords : Concept :=
  .compound [.atom "a/b;c", .compound [.atom "%2F|1|2", .atom "é]"]]

theorem markedWords_determined :
    FitsMemory markedWords.key ∧ FitsMemory "ß;/" ∧
    readFact (fact markedWords) = .ok markedWords.key ∧
    (containments markedWords).map readContainment =
      [.ok ⟨"a/b;c", 0, "a/b;c [%2F|1|2 é]]"⟩, .ok ⟨"%2F|1|2 é]", 1, "a/b;c [%2F|1|2 é]]"⟩] ∧
    readMaskMatch (maskMatch markedWords [.atom "ß;/", markedWords]) =
      .ok ["ß;/", "a/b;c [%2F|1|2 é]]"] := by
  have fits : FitsMemory markedWords.key := by decide +kernel
  have letter : FitsMemory "ß;/" := by decide +kernel
  obtain ⟨-, -, -, -, facts, entries⟩ := key_determines_name
  have key : markedWords.key = "a/b;c [%2F|1|2 é]]" := by decide +kernel
  obtain ⟨fact, edges⟩ := facts markedWords fits
  refine ⟨fits, letter, fact, ?_, ?_⟩
  · rw [edges, key]
    rfl
  · rw [← key]
    exact entries markedWords [.atom "ß;/", markedWords] (by simpa using ⟨letter, fits⟩)

end Storage.Key

end ConceptSpace
