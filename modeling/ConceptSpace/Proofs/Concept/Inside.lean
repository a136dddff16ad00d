import Mathlib.Data.List.Nodup
import ConceptSpace.Proofs.Sequence.Distinct
import ConceptSpace.Proofs.Source.Keys

/-!
# Lists of clean concepts, and what is inside them

Among clean concepts, dropping repeated keys drops repeated concepts (`mem_distinct`). What is
inside a concept are its parts and what is inside these (`mem_inside_iff`).
-/

namespace ConceptSpace.Concept

/-! ## Distinct concepts -/

theorem distinct_sublist (cs : List Concept) : (distinct cs).Sublist cs :=
  Sequence.distinctBy_sublist key cs

theorem nodup_distinct (cs : List Concept) : (distinct cs).Nodup :=
  List.Nodup.of_map key (Sequence.nodup_keys_distinctBy key cs)

/-- Where keys tell concepts apart, no concept is lost. -/
theorem mem_distinct_of_key_inj {cs : List Concept}
    (inj : ∀ c ∈ cs, ∀ d ∈ cs, c.key = d.key → c = d) {c : Concept} : c ∈ distinct cs ↔ c ∈ cs := by
  refine ⟨fun h => (distinct_sublist cs).subset h, fun h => ?_⟩
  have kept : c.key ∈ (distinct cs).map key :=
    Sequence.mem_keys_distinctBy.mpr (List.mem_map.mpr ⟨c, h, rfl⟩)
  obtain ⟨d, hd, e⟩ := List.mem_map.mp kept
  obtain rfl := inj d ((distinct_sublist cs).subset hd) c h e
  exact hd

/-- No clean concept is lost. -/
theorem mem_distinct {cs : List Concept} (clean : ∀ c ∈ cs, c.Clean) {c : Concept} :
    c ∈ distinct cs ↔ c ∈ cs :=
  mem_distinct_of_key_inj fun c hc d hd => ((clean c hc).key_inj (clean d hd)).mp

/-- Without repetition of keys, nothing is dropped. -/
theorem distinct_eq_self {cs : List Concept} (nodup : (cs.map key).Nodup) : distinct cs = cs :=
  Sequence.distinctBy_of_nodup nodup

theorem distinct_eq_nil_iff {cs : List Concept} : distinct cs = [] ↔ cs = [] := by
  refine ⟨fun none => ?_, fun none => by subst none; rfl⟩
  rw [List.eq_nil_iff_forall_not_mem]
  intro c hc
  have kept : c.key ∈ (distinct cs).map key :=
    Sequence.mem_keys_distinctBy.mpr (List.mem_map_of_mem hc)
  simp [none] at kept

theorem clean_of_mem_distinct {cs : List Concept} (clean : ∀ c ∈ cs, c.Clean) :
    ∀ c ∈ distinct cs, c.Clean :=
  fun c hc => clean c ((distinct_sublist cs).subset hc)

/-! ## Parts at every depth -/

theorem mem_insideAll_iff {cs : List Concept} {a : Concept} :
    a ∈ insideAll cs ↔ ∃ c ∈ cs, a = c ∨ a ∈ c.inside := by
  induction cs with
  | nil => simp [insideAll]
  | cons c cs ih => simp [insideAll, ih, or_assoc]

theorem mem_inside_iff {a c : Concept} :
    a ∈ c.inside ↔ ∃ p ∈ c.parts, a = p ∨ a ∈ p.inside := by
  cases c with
  | atom => simp [inside]
  | compound ps => exact mem_insideAll_iff

theorem mem_inside_of_mem_parts {a c p : Concept} (h : a = c ∨ a ∈ c.inside) (hp : p ∈ a.parts) :
    p ∈ c.inside := by
  induction c with
  | atom word =>
    obtain rfl : a = .atom word := h.resolve_right (by simp [inside])
    simp at hp
  | compound ps ih =>
    rcases h with rfl | h
    · exact mem_inside_iff.mpr ⟨p, hp, .inl rfl⟩
    · obtain ⟨q, hq, h⟩ := mem_inside_iff.mp h
      exact mem_inside_iff.mpr ⟨q, hq, .inr (ih q hq h)⟩

theorem Clean.of_mem_inside {a c : Concept} (h : c.Clean) (ha : a ∈ c.inside) : a.Clean := by
  induction c with
  | atom => simp [inside] at ha
  | compound ps ih =>
    obtain ⟨p, hp, ha⟩ := mem_inside_iff.mp ha
    rcases ha with rfl | ha
    · exact h.of_mem hp
    · exact ih p hp (h.of_mem hp) ha

/-- A set of concepts that has the parts of its members has what is inside them. -/
theorem mem_of_mem_inside {facts : Concept → Prop} (closed : ∀ c, facts c → ∀ p ∈ c.parts, facts p)
    {a c : Concept} (hc : facts c) (ha : a ∈ c.inside) : facts a := by
  induction c with
  | atom => simp [inside] at ha
  | compound ps ih =>
    obtain ⟨p, hp, ha⟩ := mem_inside_iff.mp ha
    have hp' := closed _ hc p hp
    rcases ha with rfl | ha
    · exact hp'
    · exact ih p hp hp' ha

theorem clean_of_mem_deepParts {cs : List Concept} (clean : ∀ c ∈ cs, c.Clean) :
    ∀ a ∈ deepParts cs, a.Clean := by
  intro a ha
  obtain ⟨c, hc, ha⟩ := List.mem_flatMap.mp ((distinct_sublist _).subset ha)
  exact (clean c hc).of_mem_inside ha

theorem mem_deepParts {cs : List Concept} (clean : ∀ c ∈ cs, c.Clean) {a : Concept} :
    a ∈ deepParts cs ↔ ∃ c ∈ cs, a ∈ c.inside := by
  rw [deepParts, mem_distinct, List.mem_flatMap]
  intro a ha
  obtain ⟨c, hc, ha⟩ := List.mem_flatMap.mp ha
  exact (clean c hc).of_mem_inside ha

end ConceptSpace.Concept
