import ConceptSpace.Proofs.Facts.Completeness

/-!
# Queries with one rule

The answers to one rule with variables are what the index entries of its mask bind
(`Indexed.exists_answers_singleton`): there is nothing to join. If the rule is determinate, these
are the bindings under which it reads as a stored fact, and so those that fitting it to each of the
facts finds (`Indexed.exists_answers_match`).
-/

namespace ConceptSpace.FactBase

open Storage
open ConceptSpace.Concept (IsEntry IsDeterminate ReadsAs)
open Bindings (Extends)

variable {t : Table} {facts : Finset Concept} {p : Concept} {partials : Bool}

section Rule

variable (h : Indexed t facts) (base : FactBase) (hp : p.Clean) (isPattern : p.isPattern = true)

include h hp isPattern in
/-- The answers to one rule are what the entries of the facts that its mask fits bind. -/
theorem Indexed.exists_answers_singleton (partials : Bool) : ∃ found places,
    p.match? p.mask = some places ∧ base.answers t [p] partials = .ok found ∧
      ∀ b, b ∈ found ↔ (partials || b.isGround) = true ∧ ∃ c ∈ facts, p.mask ∈ c.masks ∧
        ∃ values, IsEntry c p.mask values ∧ bindEntry places values = some b := by
  obtain ⟨places, placed⟩ :=
    Option.isSome_iff_exists.mp ((Concept.Covers.refl p).isSome_match?_mask hp hp)
  obtain ⟨entries, listed, -, mem_entries⟩ := h.exists_maskEntries_eq hp.clean_mask
  have chosen : pivot t [p] = .ok (some (p.mask, p, [])) := by
    rcases h.exists_pivot_eq [p] with ⟨none, -⟩ | ⟨rule, rest, chosen, perm, -⟩
    · simp at none
    · obtain ⟨rfl, rfl⟩ := List.cons.inj (List.perm_singleton.mp perm)
      exact chosen
  let bound (values : List Concept) : List Bindings :=
    ((bindEntry places values).filter fun b => partials || b.isGround).toList
  have answered : base.answers t [p] partials =
      .ok ((entries.map bound).flatten.filter fun b => partials || b.isGround) := by
    have single : (Concept.distinct [p]).partition (·.isPattern) = ([p], []) := by
      simp [Concept.distinct, Sequence.distinctBy, Sequence.distinctFrom, isPattern]
    have existing : base.existing t [] = [] := by rw [existing, select_eq_filter]; rfl
    refine answers_eq_ok (show base.answersWithin t partials 1 [p] = _ from ?_)
    rw [answersWithin, single]
    simp only [existing, List.length_nil, Nat.lt_irrefl, if_false, chosen, Sequence.ok_bind, placed,
      listed, List.isEmpty_nil, if_true]
    rw [Sequence.mapM_eq_ok (g := bound) fun values _ => ?_]
    · rfl
    · cases e : bindEntry places values with
      | none => simp [bound, e, pure, Except.pure]
      | some b =>
        cases partials <;> cases hb : b.isGround <;>
          simp [bound, e, hb, Option.filter_some, pure, Except.pure]
  refine ⟨_, places, placed, answered, fun b => ?_⟩
  simp only [List.mem_filter, List.mem_flatten, List.mem_map, bound]
  rw [and_comm]
  refine and_congr_right fun kept => ⟨?_, ?_⟩
  · rintro ⟨_, ⟨values, hv, rfl⟩, hb⟩
    obtain ⟨c, hc, masked, entry⟩ := (mem_entries values).mp hv
    exact ⟨c, hc, masked, values, entry, (Option.filter_eq_some_iff.mp (Option.mem_toList.mp hb)).1⟩
  · rintro ⟨c, hc, masked, values, entry, e⟩
    refine ⟨_, ⟨values, (mem_entries values).mpr ⟨c, hc, masked, entry⟩, rfl⟩, ?_⟩
    exact Option.mem_toList.mpr (Option.filter_eq_some_iff.mpr ⟨e, kept⟩)

include h hp isPattern in
/-- The answers to one determinate rule that does not fit everything are the bindings that fitting
the rule to the facts finds. -/
theorem Indexed.exists_answers_match (plain : p.HasPlainWord) (determinate : p.IsDeterminate)
    (partials : Bool) : ∃ found, base.answers t [p] partials = .ok found ∧
      ∀ b, b ∈ found ↔ (partials || b.isGround) = true ∧ ∃ c ∈ facts, c.match? p = some b := by
  obtain ⟨found, places, placed, e, mem_found⟩ :=
    h.exists_answers_singleton base hp isPattern partials
  refine ⟨found, e, fun b => (mem_found b).trans (and_congr_right fun _ => ?_)⟩
  refine exists_congr fun c => and_congr_right fun hc => ?_
  have clean := (h.storable c hc).clean
  rw [hp.match?_eq_some_iff_of_isDeterminate determinate clean]
  constructor
  · rintro ⟨-, values, entry, bound⟩
    obtain ⟨extended, among, -⟩ := becomes_of_bindEntry hp placed entry bound
    exact ⟨readsAs_of_bindEntry hp placed entry clean bound,
      fun _ _ e => entry.cleanValues _ (among e), fun name => extended.ne_none_iff.mp⟩
  · rintro ⟨reads, cleanValues, names⟩
    have masked := reads.covers.mask_mem_masks hp clean isPattern plain
    obtain ⟨values, entry⟩ := (h.storable c hc).exists_isEntry masked
    obtain ⟨cand, bound, part⟩ :=
      exists_bindEntry_of_readsAs hp placed entry clean determinate cleanValues reads
    obtain ⟨extended, -, -⟩ := becomes_of_bindEntry hp placed entry bound
    obtain rfl := Bindings.eq_of_isPartOf part
      fun name hn => extended.ne_none_iff.mpr (names name hn)
    exact ⟨masked, values, entry, bound⟩

end Rule

end ConceptSpace.FactBase
