import ConceptSpace.Proofs.Trigger.Grouping

/-!
# Components and the triggers that they define

A clean concept states at most one component, and is the fact that states it
(`Component.ofConcept?_eq_some_iff`). Triggers are compared by what they state: the triggers that
components define have different names and state just these components
(`Trigger.isStated_ofComponents_iff`).
-/

namespace ConceptSpace

open ConceptSpace.Concept (Clean distinct)

variable {c : Concept} {d e : Component}

/-! ## Components -/

namespace Component

theorem toConcept_eq (d : Component) : d.toConcept =
    .compound [d.trigger, .compound [.atom d.role.directive, d.argument]] := by
  have pair : ∀ a b : Concept, Concept.pair a b = .compound [a, b] := fun a b =>
    Concept.node_of_isArranged fun _ => List.pairwise_singleton _ _
  rw [toConcept, pair, pair]

@[simp] theorem ofConcept?_toConcept (d : Component) : ofConcept? d.toConcept = some d := by
  simp [toConcept_eq, ofConcept?, Role.ofDirective?_directive]

/-- A clean concept states a component just if it is the fact for it. -/
theorem ofConcept?_eq_some_iff (h : c.Clean) : ofConcept? c = some d ↔ c = d.toConcept := by
  rw [toConcept_eq]
  constructor
  · intro stated
    unfold ofConcept? at stated
    split at stated
    case h_2 => simp at stated
    case h_1 trigger tail outer =>
      split at stated
      case h_2 => simp at stated
      case h_1 directive argument inner =>
        obtain ⟨role, word, rfl⟩ := Option.map_eq_some_iff.mp stated
        obtain ⟨rfl⟩ : c = .compound [trigger, tail] := by
          cases c with
          | atom => simp at outer
          | compound ps => exact congrArg _ outer
        obtain ⟨rfl⟩ : tail = .compound [directive, argument] := by
          cases tail with
          | atom => simp at inner
          | compound ps => exact congrArg _ inner
        have inner : Concept.Clean (.compound [directive, argument]) := h.of_mem (by simp)
        have clean : directive.Clean := inner.of_mem (by simp)
        have token : Concept.Clean (.atom role.directive) :=
          Concept.clean_atom_iff.mpr (by cases role <;> decide)
        have same : (Concept.atom role.directive).key = directive.key :=
          Role.directive_of_ofDirective? word
        rw [(token.key_inj clean).mp same]
  · rintro rfl
    rw [← toConcept_eq, ofConcept?_toConcept]

/-- A component of clean concepts. -/
structure IsClean (d : Component) : Prop where
  /-- The name of the trigger is clean. -/
  trigger : d.trigger.Clean
  /-- What is contributed is clean. -/
  argument : d.argument.Clean

theorem mem_inside_toConcept (d : Component) :
    d.trigger ∈ d.toConcept.inside ∧ d.argument ∈ d.toConcept.inside := by
  have inner : d.argument ∈ (Concept.compound [.atom d.role.directive, d.argument]).inside :=
    Concept.mem_inside_iff.mpr ⟨d.argument, by simp, .inl rfl⟩
  rw [toConcept_eq]
  exact ⟨Concept.mem_inside_iff.mpr ⟨d.trigger, by simp, .inl rfl⟩,
    Concept.mem_inside_iff.mpr ⟨_, List.mem_cons_of_mem _ (List.mem_cons_self ..), .inr inner⟩⟩

theorem IsClean.of_toConcept (h : d.toConcept.Clean) : d.IsClean where
  trigger := h.of_mem_inside d.mem_inside_toConcept.1
  argument := h.of_mem_inside d.mem_inside_toConcept.2

end Component

/-! ## Triggers -/

namespace Trigger

variable {ts : List Trigger} {cs : List Component}

/-- One of some triggers has a component. -/
def IsStated (ts : List Trigger) (d : Component) : Prop :=
  ∃ t ∈ ts, t.name = d.trigger ∧ d.argument ∈ t.arguments d.role

/-- Triggers with different clean names and clean arguments, each with at least one of these. -/
structure AreClean (ts : List Trigger) : Prop where
  /-- No name comes twice. -/
  nodup : (ts.map (·.name)).Nodup
  /-- The names are clean. -/
  names : ∀ t ∈ ts, t.name.Clean
  /-- The arguments are clean. -/
  arguments : ∀ t ∈ ts, ∀ role, ∀ a ∈ t.arguments role, a.Clean
  /-- No trigger is without arguments. -/
  defined : ∀ t ∈ ts, ∃ role, t.arguments role ≠ []

namespace AreClean

theorem nil : AreClean [] := ⟨.nil, by simp, by simp, by simp⟩

/-- The names are those under which something is stated. -/
theorem mem_names_iff (h : AreClean ts) {name : Concept} :
    name ∈ ts.map (·.name) ↔ ∃ d, IsStated ts d ∧ d.trigger = name := by
  rw [List.mem_map]
  constructor
  · rintro ⟨t, ht, rfl⟩
    obtain ⟨role, some⟩ := h.defined t ht
    obtain ⟨a, ha⟩ := List.exists_mem_of_ne_nil _ some
    exact ⟨⟨t.name, role, a⟩, ⟨t, ht, rfl, ha⟩, rfl⟩
  · rintro ⟨d, ⟨t, ht, name, -⟩, rfl⟩
    exact ⟨t, ht, name⟩

end AreClean

theorem areClean_ofComponents (clean : ∀ d ∈ cs, d.IsClean) : AreClean (ofComponents cs) where
  nodup := (areGathered_ofComponents cs).names.of_map _
  names t ht := by
    obtain ⟨d, hd, named⟩ := exists_component_of_mem_ofComponents ht
    exact named ▸ (clean d hd).trigger
  arguments t ht role a ha := by
    obtain ⟨d, hd, -, -, rfl⟩ := exists_component_of_mem_arguments ht ha
    exact (clean d hd).argument
  defined := (areGathered_ofComponents cs).defined

/-- The triggers that components define state these components. -/
theorem isStated_ofComponents_iff (clean : ∀ d ∈ cs, d.IsClean) :
    IsStated (ofComponents cs) e ↔ e ∈ cs := by
  constructor
  · rintro ⟨t, ht, name, argument⟩
    obtain ⟨d, hd, same, role, stated⟩ := exists_component_of_mem_arguments ht argument
    have trigger : t.name = d.trigger :=
      (((areClean_ofComponents clean).names t ht).key_inj (clean d hd).trigger).mp
        (beq_iff_eq.mp same)
    obtain rfl : d = e := by
      cases d
      cases e
      simp_all
    exact hd
  · intro he
    have name : e.trigger ∈ distinct (cs.map (·.trigger)) := by
      refine (Concept.mem_distinct fun n hn => ?_).mpr (List.mem_map_of_mem he)
      obtain ⟨d, hd, rfl⟩ := List.mem_map.mp hn
      exact (clean d hd).trigger
    refine ⟨_, mem_ofComponents_iff.mpr ⟨_, name, rfl⟩, name_gathered .., ?_⟩
    rw [arguments_gathered, Concept.mem_distinct]
    · refine List.mem_map_of_mem ?_
      simp [componentsOf, he, Concept.same]
    · intro a ha
      obtain ⟨d, hd, rfl⟩ := List.mem_map.mp ha
      exact (clean d (List.mem_filter.mp (List.mem_filter.mp hd).1).1).argument

end Trigger

/-! ## Given components -/

namespace Separation

variable {cs : List Concept}

/-- The given components are the facts for what the triggers state. -/
theorem mem_components_iff :
    d.toConcept ∈ (Separation.ofConcepts cs).components ↔ d.toConcept ∈ cs := by
  refine List.mem_filter.trans (and_iff_left ?_)
  rw [Component.ofConcept?_toConcept]
  rfl

/-- No component is taken for a fact. -/
theorem not_mem_facts : d.toConcept ∉ (Separation.ofConcepts cs).facts := by
  intro hd
  have none := (List.mem_filter.mp hd).2
  rw [Component.ofConcept?_toConcept] at none
  cases none

variable (clean : ∀ c ∈ cs, c.Clean)

include clean

theorem isClean_of_mem : ∀ e ∈ cs.filterMap Component.ofConcept?, e.IsClean := by
  intro e he
  obtain ⟨c, hc, stated⟩ := List.mem_filterMap.mp he
  obtain rfl := (Component.ofConcept?_eq_some_iff (clean c hc)).mp stated
  exact .of_toConcept (clean _ hc)

theorem areClean_triggers : Trigger.AreClean (Separation.ofConcepts cs).triggers :=
  Trigger.areClean_ofComponents (isClean_of_mem clean)

/-- The triggers among clean concepts state the components that the concepts state. -/
theorem isStated_triggers_iff :
    Trigger.IsStated (Separation.ofConcepts cs).triggers d ↔ d.toConcept ∈ cs := by
  rw [Separation.ofConcepts, Trigger.isStated_ofComponents_iff (isClean_of_mem clean),
    List.mem_filterMap]
  constructor
  · rintro ⟨c, hc, stated⟩
    exact (Component.ofConcept?_eq_some_iff (clean c hc)).mp stated ▸ hc
  · exact fun hd => ⟨_, hd, (Component.ofConcept?_eq_some_iff (clean _ hd)).mpr rfl⟩

end Separation

end ConceptSpace
