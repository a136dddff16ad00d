import ConceptSpace.Proofs.Facts.Solutions

/-!
# Anchored rules

Rules that consist of variables only fit everything, so that there is no index for them: a query
finds nothing for them, unless their variables are bound by the other rules before. This is so if
the variables of the rules are all reached from rules with another word, from one variable of a rule
to the others. Such rules are *anchored*, and the remaining rules are so after bindings of one rule
with another word have been put into them just if all rules are (`anchored_rest_iff`).
-/

namespace ConceptSpace.FactBase

open Bindings (Extends)

variable {rules rest : List Concept} {rule r : Concept} {cand : Bindings}

/-- All variables of some rules are reached from rules that have a word besides variables, from one
variable of a rule to the others. -/
def Anchored (rules : List Concept) : Prop :=
  ∀ known : String → Prop,
    (∀ r ∈ rules, (r.HasPlainWord ∨ ∃ name ∈ r.vars, known name) → ∀ name ∈ r.vars, known name) →
      ∀ r ∈ rules, ∀ name ∈ r.vars, known name

/-- Only rules with variables matter. -/
theorem anchored_congr {others : List Concept}
    (same : ∀ r : Concept, ¬ r.IsGround → (r ∈ rules ↔ r ∈ others)) :
    Anchored rules ↔ Anchored others := by
  have half : ∀ {rules others : List Concept},
      (∀ r : Concept, ¬ r.IsGround → (r ∈ rules ↔ r ∈ others)) →
        Anchored rules → Anchored others := by
    intro rules others same anchored known closed r hr name hn
    have opened : ∀ {r : Concept} {name : String}, name ∈ r.vars → ¬ r.IsGround :=
      fun hn ground => by rw [ground] at hn; simp at hn
    refine anchored known (fun q hq reached name hn => ?_) r ((same r (opened hn)).mpr hr) name hn
    exact closed q ((same q (opened hn)).mp hq) reached name hn
  exact ⟨half same, half fun r opened => (same r opened).symm⟩

theorem anchored_singleton (plain : rule.HasPlainWord) : Anchored [rule] := by
  intro known closed r hr
  exact closed r hr (.inl (List.mem_singleton.mp hr ▸ plain))

/-- Anchored rules with variables include one that does not fit everything. -/
theorem Anchored.exists_hasPlainWord (h : Anchored rules) (hr : r ∈ rules) (opened : ¬ r.IsGround) :
    ∃ q ∈ rules, q.HasPlainWord := by
  by_contra none
  obtain ⟨name, hn⟩ := List.exists_mem_of_ne_nil _ opened
  refine h (fun _ => False) (fun q hq reached => ?_) r hr name hn
  rcases reached with plain | ⟨_, -, known⟩
  · exact absurd ⟨q, hq, plain⟩ none
  · exact known.elim

theorem hasPlainWord_of_isGround {c : Concept} (hc : c.Clean) (ground : c.IsGround) :
    c.HasPlainWord := by
  obtain ⟨word, hw⟩ := List.exists_mem_of_ne_nil _ hc.words_ne_nil
  refine ⟨word, hw, ?_⟩
  by_contra isVariable
  have : word ∈ c.vars := List.mem_filter.mpr ⟨hw, by simpa using isVariable⟩
  rw [ground] at this
  simp at this

section Rest

variable (clean : ∀ r ∈ rule :: rest, r.Clean) (hc : Extends rule.vars ∅ cand)
  (shared : ∀ r ∈ rest, ∀ name ∈ r.vars, ∀ value, cand[name]? = some value → value.IsGround)

include clean hc shared in
/-- An instance has a word besides variables if the rule has one, or shares a variable with the
first rule. -/
theorem hasPlainWord_instantiate_iff (hr : r ∈ rest) :
    (r.instantiate cand).HasPlainWord ↔ r.HasPlainWord ∨ ∃ name ∈ r.vars, name ∈ rule.vars := by
  have clean' : r.Clean := clean r (by simp [hr])
  constructor
  · rintro ⟨word, hw, hv⟩
    obtain ⟨w, hw', hw⟩ := clean'.mem_words_instantiate.mp hw
    by_cases isVariable : Concept.startsWith '$' w = true
    · refine .inr ⟨w, List.mem_filter.mpr ⟨hw', isVariable⟩, ?_⟩
      refine hc.ne_none_iff.mp fun free => ?_
      obtain rfl : word = w := by simpa [Concept.instantiate, free] using hw
      rw [hv] at isVariable
      contradiction
    · rw [Concept.instantiate_atom_of_not_variable (by simpa using isVariable)] at hw
      obtain rfl : word = w := by simpa using hw
      exact .inl ⟨word, hw', hv⟩
  · rintro (⟨word, hw, hv⟩ | ⟨name, hn, own⟩)
    · exact ⟨word, clean'.mem_words_instantiate_of_not_variable hw hv, hv⟩
    · obtain ⟨value, e⟩ := Option.ne_none_iff_exists'.mp (hc.ne_none_iff.mpr own)
      obtain ⟨word, hw, hv⟩ := hasPlainWord_of_isGround (hc.clean e) (shared r hr name hn value e)
      have isVariable := (List.mem_filter.mp hn).2
      refine ⟨word, clean'.mem_words_instantiate.mpr ⟨name, (List.mem_filter.mp hn).1, ?_⟩, hv⟩
      rwa [Concept.instantiate_atom_of_bound isVariable e]

include clean hc shared in
/-- When bindings of a rule with another word than variables have been put into the other rules,
they are anchored if all rules are. -/
theorem anchored_rest_iff (plain : rule.HasPlainWord) :
    Anchored (rest.map (Concept.instantiate cand)) ↔ Anchored (rule :: rest) := by
  have open_iff : ∀ r ∈ rest, ∀ name, name ∈ (r.instantiate cand).vars ↔
      name ∈ r.vars ∧ name ∉ rule.vars := fun r hr name => by
    rw [(clean r (by simp [hr])).mem_vars_instantiate_iff (shared r hr), ← hc.ne_none_iff, not_not]
  have plain_iff := fun r (hr : r ∈ rest) => hasPlainWord_instantiate_iff clean hc shared hr
  constructor
  · intro anchored known closed
    have own : ∀ name ∈ rule.vars, known name := closed rule (by simp) (.inl plain)
    have others := anchored known fun q hq reached name hn => by
      obtain ⟨r, hr, rfl⟩ := List.mem_map.mp hq
      refine closed r (by simp [hr]) ?_ name ((open_iff r hr name).mp hn).1
      rcases reached with plain | ⟨other, ho, known'⟩
      · exact ((plain_iff r hr).mp plain).imp_right fun ⟨n, hn, h⟩ => ⟨n, hn, own n h⟩
      · exact .inr ⟨other, ((open_iff r hr other).mp ho).1, known'⟩
    intro r hr name hn
    by_cases bound : name ∈ rule.vars
    · exact own name bound
    · rcases List.mem_cons.mp hr with rfl | hr
      · exact absurd hn bound
      · exact others _ (List.mem_map_of_mem hr) name ((open_iff r hr name).mpr ⟨hn, bound⟩)
  · intro anchored known closed
    have reached := anchored (fun name => name ∈ rule.vars ∨ known name)
      fun q hq reached name hn => by
      by_cases bound : name ∈ rule.vars
      · exact .inl bound
      · rcases List.mem_cons.mp hq with rfl | hq
        · exact absurd hn bound
        refine .inr
          (closed _ (List.mem_map_of_mem hq) ?_ name ((open_iff q hq name).mpr ⟨hn, bound⟩))
        rw [plain_iff q hq]
        rcases reached with plain | ⟨other, ho, own | known'⟩
        · exact .inl (.inl plain)
        · exact .inl (.inr ⟨other, ho, own⟩)
        · by_cases own : other ∈ rule.vars
          · exact .inl (.inr ⟨other, ho, own⟩)
          · exact .inr ⟨other, (open_iff q hq other).mpr ⟨ho, own⟩, known'⟩
    intro q hq name hn
    obtain ⟨r, hr, rfl⟩ := List.mem_map.mp hq
    obtain ⟨hn, free⟩ := (open_iff r hr name).mp hn
    exact (reached r (by simp [hr]) name hn).resolve_left free

end Rest

end ConceptSpace.FactBase
