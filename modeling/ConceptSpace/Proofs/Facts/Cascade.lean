import ConceptSpace.Proofs.Facts.Counting
import ConceptSpace.Proofs.Facts.History

/-!
# What a removal takes along

Removing clean concepts removes the stored ones among them, the stored facts that hold one of these
at any depth, and nothing else; it counts them, and the other facts stay
(`Reached.remove_cascades`).
-/

namespace ConceptSpace.FactBase

open Storage

variable {t : Table} {facts : Finset Concept} {cs : List Concept} {d : Concept}

/-! ## The facts of a table -/

/-- As many facts are stored as there are. -/
theorem Indexed.count_eq (h : Indexed t facts) : count t = facts.card := by
  have keys : factKeys t = facts.image Key.fact := by
    ext key
    rw [mem_factKeys, Finset.mem_image, h.lookup, Option.isSome_iff_ne_none]
    constructor
    · rintro ⟨stored, isFact⟩
      obtain ⟨c, hc, rfl⟩ := exists_of_factStem_prefix stored isFact
      exact ⟨c, hc, rfl⟩
    · rintro ⟨c, hc, rfl⟩
      exact ⟨by simp [described_of_mem_marks hc (fact_mem_marks c)], isFactKey_fact c⟩
  rw [← card_factKeys, keys, Finset.card_image_of_injOn h.injOn_fact]

/-- Of the facts, those stay stored that have not been removed. -/
theorem Indexed.contains_sdiff_iff {left : Table} {removed : List Concept}
    (h : Indexed t facts) (among : ∀ c ∈ removed, c ∈ facts)
    (remaining : Indexed left (facts \ removed.toFinset)) :
    contains left d = true ↔ contains t d = true ∧ d.key ∉ removed.map Concept.key := by
  rw [remaining.contains_iff_exists, h.contains_iff_exists]
  constructor
  · rintro ⟨c, hc, same⟩
    obtain ⟨hc, kept⟩ := Finset.mem_sdiff.mp hc
    refine ⟨⟨c, hc, same⟩, fun hd => kept ?_⟩
    obtain ⟨e, he, same'⟩ := List.mem_map.mp hd
    have clean := (h.storable e (among e he)).clean
    obtain rfl := (clean.key_inj (h.storable c hc).clean).mp (same'.trans same.symm)
    exact List.mem_toFinset.mpr he
  · rintro ⟨⟨c, hc, same⟩, kept⟩
    refine ⟨c, Finset.mem_sdiff.mpr ⟨hc, fun hr => kept ?_⟩, same⟩
    exact List.mem_map.mpr ⟨c, List.mem_toFinset.mp hr, same⟩

/-! ## Main statement -/

/-- Removing clean concepts from a store that was reached succeeds. It removes just the stored facts
that are one of the stored concepts given or hold one of them, at any depth; it reports each of them
once, counts them, and leaves every other fact stored. -/
theorem Reached.remove_cascades {kind : Concept → Prop} {s : Store} (h : Reached kind s)
    (base : FactBase) (clean : ∀ c ∈ cs, c.Clean) : ∃ removed s',
      base.remove cs s = (.ok ⟨removed, removed.length⟩, s') ∧ removed.Nodup ∧
      (∀ d, d ∈ removed ↔ d.Clean ∧ contains s.table d = true ∧
        ∃ c ∈ cs, contains s.table c = true ∧ (d = c ∨ c ∈ d.inside)) ∧
      ∀ d, contains s'.table d = true ↔
        contains s.table d = true ∧ d.key ∉ removed.map Concept.key := by
  obtain ⟨small, -, facts, indexed, -⟩ := h.exists_indexed
  obtain ⟨found, count, left, e, remaining, nodup, mem⟩ :=
    indexed.exists_remove_eq small clean base
  have among : ∀ c ∈ found, c ∈ facts := fun c hc => ((mem c).mp hc).1
  have counted : count = found.length := by
    have total := count_remove e
    change FactBase.count left + count = _ at total
    have subset : found.toFinset ⊆ facts := fun c hc => among c (List.mem_toFinset.mp hc)
    have split := Finset.card_sdiff_add_card_eq_card subset
    rw [remaining.count_eq, indexed.count_eq] at total
    rw [List.toFinset_card_of_nodup nodup] at split
    omega
  subst counted
  refine ⟨found, _, e, nodup, fun d => ?_, fun d => indexed.contains_sdiff_iff among remaining⟩
  rw [mem, indexed.mem_iff, and_assoc]
  refine and_congr_right fun _ => and_congr_right fun _ => exists_congr fun c =>
    and_congr_right fun hc => ?_
  rw [indexed.mem_iff, and_iff_right (clean c hc)]

/-- A set. -/
private def twoLetters : Concept :=
  .compound [.atom ":", .atom "a", .atom "b"]

/-- Facts that share a part, one of them deep inside. -/
private def sharing : List Concept :=
  [.compound [twoLetters, .atom "c"], .compound [.atom "d", .atom "a"]]

private def sharingStore : Store :=
  ((Change.add sharing).run ⟨"home", 2⟩ (Store.create .memory)).2

/-- The shared part twice, something that holds it, and something that is not stored. -/
private def sharedParts : List Concept :=
  [.atom "a", twoLetters, .atom "z", .atom "a"]

theorem sharingStore_remove : Reached (fun _ => True) sharingStore ∧
    ∃ removed s', remove ⟨"home", 2⟩ sharedParts sharingStore =
        (.ok ⟨removed, removed.length⟩, s') ∧
      removed.Perm (.atom "a" :: twoLetters :: sharing) ∧
        contains s'.table (.atom "b") = true := by
  have fine : ∀ c ∈ sharing, c.Clean ∧ Key.FitsMemory c.key := by decide +kernel
  have storable : ∀ c ∈ sharing, Storable c := fun c hc => ⟨(fine c hc).1, (fine c hc).2⟩
  have reached : Reached (fun _ => True) sharingStore :=
    .add_create .memory ⟨"home", 2⟩ storable (fun _ _ => trivial) (by decide +kernel)
  have indexed := indexed_add_create .memory ⟨"home", 2⟩ storable
  have clean : ∀ c ∈ sharedParts, c.Clean := by decide +kernel
  obtain ⟨removed, s', e, nodup, mem, kept⟩ := reached.remove_cascades ⟨"home", 2⟩ clean
  have perm : removed.Perm (.atom "a" :: twoLetters :: sharing) := by
    refine (List.perm_ext_iff_of_nodup nodup (by decide +kernel)).mpr fun d => ?_
    have among : ∀ d ∈ .atom "a" :: twoLetters :: sharing,
        d ∈ (sharing ++ sharing.flatMap Concept.inside).toFinset := by decide +kernel
    have holds : ∀ d ∈ (sharing ++ sharing.flatMap Concept.inside).toFinset,
        (∃ c ∈ sharedParts, c ∈ (sharing ++ sharing.flatMap Concept.inside).toFinset ∧
          (d = c ∨ c ∈ d.inside)) ↔ d ∈ .atom "a" :: twoLetters :: sharing := by decide +kernel
    rw [mem]
    constructor
    · rintro ⟨hd, stored, c, hc, stored', around⟩
      exact (holds d (indexed.mem_iff.mpr ⟨hd, stored⟩)).mp
        ⟨c, hc, indexed.mem_iff.mpr ⟨clean c hc, stored'⟩, around⟩
    · intro hd
      obtain ⟨hd', stored⟩ := indexed.mem_iff.mp (among d hd)
      obtain ⟨c, hc, stored', around⟩ := (holds d (among d hd)).mpr hd
      exact ⟨hd', stored, c, hc, (indexed.mem_iff.mp stored').2, around⟩
  refine ⟨reached, removed, s', e, perm, (kept _).mpr ⟨?_, fun hb => ?_⟩⟩
  · exact (indexed.mem_iff.mp (by decide +kernel)).2
  · have letters : (Concept.atom "b").key ∉
        (.atom "a" :: twoLetters :: sharing).map Concept.key := by decide +kernel
    exact letters ((perm.map _).mem_iff.mp hb)

end ConceptSpace.FactBase
