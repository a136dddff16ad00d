import ConceptSpace.Proofs.Trigger.Components

/-!
# Separating triggers from facts

A component is a concept that fits the pattern `$trigger [$type $arg]` with the directive of a role
for `$type` (`Component.ofConcept?_eq_bind_match?`). Clean concepts are separated into components
and other facts without loss, and the triggers stand for just the components
(`Separation.ofConcepts_lossless`).
-/

namespace ConceptSpace

open ConceptSpace.Concept (distinct)

/-! ## Recognizing components -/

namespace Concept

/-- A compound of two parts that is no set fits compounds of two parts, part by part. -/
theorem unify_pair {p q : Concept} (noSet : p.key ≠ setMarker) (c : Concept) (b : Bindings) :
    unify (.compound [p, q]) c b =
      match c.parts with
      | [head, tail] => (p.unify head b).bind (q.unify tail)
      | _ => none := by
  have ordered : isSet (.compound [p, q]) = false := by simpa [isSet] using noSet
  cases c with
  | atom word => rfl
  | compound cs =>
    rw [unify, ordered, matchers_eq_map]
    match cs with
    | [] => rfl
    | [_] => rfl
    | [head, tail] => simp [Matcher.inOrder]
    | _ :: _ :: _ :: _ => simp

/-- A variable without a value takes what stands at its place. -/
theorem unify_free {name : String} (isVariable : startsWith '$' name = true) (c : Concept)
    {b : Bindings} (free : b[name]? = none) :
    unify (.atom name) c b = some (b.insert name c) := by
  unfold unify
  rw [if_pos isVariable, Bindings.bind?, free]

end Concept

namespace Component

/-- The pattern of components, which leaves the directive open. -/
def shape : Concept :=
  .pair FactBase.triggerVariable (.pair (.atom "$type") FactBase.argumentVariable)

theorem shape_eq : shape =
    .compound [.atom "$trigger", .compound [.atom "$type", .atom "$arg"]] := by
  decide

/-- What the variables of the shape are bound to. -/
def bindings (trigger directive argument : Concept) : Bindings :=
  (((∅ : Bindings).insert "$trigger" trigger).insert "$type" directive).insert "$arg" argument

theorem match?_shape (c : Concept) : c.match? shape =
    match c.parts with
    | [trigger, tail] =>
      match tail.parts with
      | [directive, argument] => some (bindings trigger directive argument)
      | _ => none
    | _ => none := by
  rw [Concept.match?, shape_eq, Concept.unify_pair (by decide)]
  rcases c.parts with _ | ⟨trigger, _ | ⟨tail, _ | _⟩⟩
  case cons.cons.nil =>
    simp only
    rw [Concept.unify_free (by decide) _ (by simp), Option.bind_some,
      Concept.unify_pair (by decide)]
    rcases tail.parts with _ | ⟨directive, _ | ⟨argument, _ | _⟩⟩
    case cons.cons.nil =>
      simp only
      rw [Concept.unify_free (by decide) _ (by simp), Option.bind_some,
        Concept.unify_free (by decide) _ (by simp), bindings]
    all_goals rfl
  all_goals rfl

theorem getElem?_bindings (trigger directive argument : Concept) (name : String) :
    (bindings trigger directive argument)[name]? =
      if "$arg" = name then some argument
      else if "$type" = name then some directive
      else if "$trigger" = name then some trigger else none := by
  simp [bindings, Std.ExtTreeMap.getElem?_insert]

/-- A concept states the component that is read off the bindings under which it has the shape of
components. -/
theorem ofConcept?_eq_bind_match? (c : Concept) : ofConcept? c = (c.match? shape).bind fun found =>
    found["$type"]?.bind fun directive =>
      (Role.ofDirective? directive.key).bind fun role => FactBase.componentOf? role found := by
  rw [match?_shape, ofConcept?]
  rcases c.parts with _ | ⟨trigger, _ | ⟨tail, _ | _⟩⟩
  case cons.cons.nil =>
    simp only
    rcases tail.parts with _ | ⟨directive, _ | ⟨argument, _ | _⟩⟩
    case cons.cons.nil =>
      have stated : ∀ role, FactBase.componentOf? role (bindings trigger directive argument) =
          some ⟨trigger, role, argument⟩ := by
        intro role
        rw [FactBase.componentOf?, getElem?_bindings, getElem?_bindings]
        rfl
      have own : (bindings trigger directive argument)["$type"]? = some directive := by
        rw [getElem?_bindings]
        rfl
      simp only [Option.bind_some, own, stated]
      exact Option.map_eq_bind
    all_goals rfl
  all_goals rfl

end Component

/-! ## Separating concepts -/

namespace Separation

theorem ofConcepts_map_toConcept (ds : List Component) :
    ofConcepts (ds.map Component.toConcept) =
      ⟨[], ds.map Component.toConcept, Trigger.ofComponents ds⟩ := by
  have facts : (ds.map Component.toConcept).filter (fun c => (Component.ofConcept? c).isNone) = [] :=
    List.filter_eq_nil_iff.mpr (by simp)
  have components : (ds.map Component.toConcept).filter
      (fun c => (Component.ofConcept? c).isSome) = ds.map Component.toConcept :=
    List.filter_eq_self.mpr (by simp)
  have read : (ds.map Component.toConcept).filterMap Component.ofConcept? = ds := by
    rw [List.filterMap_map]
    simp
  rw [ofConcepts, facts, components, read]

theorem facts_append_components_perm (cs : List Concept) :
    ((ofConcepts cs).facts ++ (ofConcepts cs).components).Perm cs := by
  have split := List.filter_append_perm (fun c => (Component.ofConcept? c).isNone) cs
  simpa [ofConcepts] using split

/-- The components among clean concepts are the facts that state one. -/
theorem mem_components_iff_exists {cs : List Concept} (clean : ∀ c ∈ cs, c.Clean) {c : Concept} :
    c ∈ (ofConcepts cs).components ↔ c ∈ cs ∧ ∃ d : Component, d.toConcept = c := by
  rw [ofConcepts, List.mem_filter]
  refine and_congr_right fun hc => ?_
  rw [Option.isSome_iff_exists]
  exact exists_congr fun d => (Component.ofConcept?_eq_some_iff (clean c hc)).trans eq_comm

/-- The triggers of clean concepts are defined by the components among them. -/
theorem mem_flatMap_components_iff {cs : List Concept} (clean : ∀ c ∈ cs, c.Clean) {c : Concept} :
    c ∈ (ofConcepts cs).triggers.flatMap Trigger.components ↔ c ∈ (ofConcepts cs).components := by
  have states : ∀ d, d.toConcept ∈ (ofConcepts cs).components ↔
      Trigger.IsStated (ofConcepts cs).triggers d := fun d =>
    mem_components_iff.trans (isStated_triggers_iff clean).symm
  constructor
  · intro h
    obtain ⟨t, ht, hc⟩ := List.mem_flatMap.mp h
    rw [Trigger.components_eq_map] at hc
    obtain ⟨d, hd, rfl⟩ := List.mem_map.mp hc
    exact (states d).mpr ⟨t, ht, Trigger.mem_stated_iff.mp hd⟩
  · intro h
    obtain ⟨-, d, rfl⟩ := (mem_components_iff_exists clean).mp h
    obtain ⟨t, ht, named⟩ := (states d).mp h
    refine List.mem_flatMap.mpr ⟨t, ht, ?_⟩
    rw [Trigger.components_eq_map]
    exact List.mem_map_of_mem (Trigger.mem_stated_iff.mpr named)

/-- Concepts are separated without loss. The components are the facts that state one; they and the
other facts keep their order and make up the list. The triggers have the names of the components,
each once and in the order in which they first occur, and are defined by just these components. From
the components of the triggers, the triggers come back. -/
theorem ofConcepts_lossless {cs : List Concept} (clean : ∀ c ∈ cs, c.Clean) :
    ((ofConcepts cs).facts.Sublist cs ∧ (ofConcepts cs).components.Sublist cs ∧
      (ofConcepts cs).facts.Disjoint (ofConcepts cs).components ∧
      ((ofConcepts cs).facts ++ (ofConcepts cs).components).Perm cs ∧
      ∀ c, c ∈ (ofConcepts cs).components ↔ c ∈ cs ∧ ∃ d : Component, d.toConcept = c) ∧
    (((ofConcepts cs).triggers.map (·.name)).Nodup ∧
      (ofConcepts cs).triggers.map (·.name) =
        distinct ((cs.filterMap Component.ofConcept?).map (·.trigger))) ∧
    (∀ c, c ∈ (ofConcepts cs).triggers.flatMap Trigger.components ↔
      c ∈ (ofConcepts cs).components) ∧
    ofConcepts ((ofConcepts cs).triggers.flatMap Trigger.components) =
      ⟨[], (ofConcepts cs).triggers.flatMap Trigger.components, (ofConcepts cs).triggers⟩ := by
  have names : (ofConcepts cs).triggers.map (·.name) =
      distinct ((cs.filterMap Component.ofConcept?).map (·.trigger)) :=
    Trigger.names_ofComponents _
  refine ⟨⟨List.filter_sublist, List.filter_sublist, ?_, facts_append_components_perm cs,
    fun c => mem_components_iff_exists clean⟩, ⟨?_, names⟩,
    fun c => mem_flatMap_components_iff clean, ?_⟩
  · intro c hf hc
    have none := (List.mem_filter.mp hf).2
    have some := (List.mem_filter.mp hc).2
    cases read : Component.ofConcept? c <;> simp [read] at none some
  · rw [names]
    exact Concept.nodup_distinct _
  · have listed : (ofConcepts cs).triggers.flatMap Trigger.components =
        ((ofConcepts cs).triggers.flatMap Trigger.stated).map Component.toConcept := by
      rw [List.map_flatMap]
      exact List.flatMap_congr fun t _ => Trigger.components_eq_map t
    have again : Trigger.ofComponents ((ofConcepts cs).triggers.flatMap Trigger.stated) =
        (ofConcepts cs).triggers :=
      Trigger.ofComponents_flatMap_stated (Trigger.areGathered_ofComponents _)
    rw [listed, ofConcepts_map_toConcept, again]

/-- Components of two triggers in turns, one of them twice, and a fact between them. -/
private def interleaved : List Concept :=
  [.compound [.atom ":", .compound [.atom "@adds", .atom "x"]],
    .compound [.atom "$n", .compound [.atom "@matches", .compound [.atom "$a", .atom "$b"]]],
    .compound [.atom "a", .atom "b"],
    .compound [.atom ":", .compound [.atom "@matches", .atom "$v"]],
    .compound [.atom ":", .compound [.atom "@adds", .atom "x"]]]

/-- The two triggers. -/
private def deinterleaved : List Trigger :=
  [{ name := .atom ":", conditions := [.atom "$v"], additions := [.atom "x"] },
    { name := .atom "$n", conditions := [.compound [.atom "$a", .atom "$b"]] }]

theorem ofConcepts_interleaved :
    (ofConcepts interleaved).facts = [.compound [.atom "a", .atom "b"]] ∧
      (ofConcepts interleaved).components.length = 4 ∧
      ((ofConcepts interleaved).facts ++ (ofConcepts interleaved).components).Perm interleaved ∧
      (ofConcepts interleaved).triggers = deinterleaved ∧
      (∀ c, c ∈ deinterleaved.flatMap Trigger.components ↔
        c ∈ (ofConcepts interleaved).components) ∧
      ofConcepts (deinterleaved.flatMap Trigger.components) =
        ⟨[], deinterleaved.flatMap Trigger.components, deinterleaved⟩ := by
  have clean : ∀ c ∈ interleaved, c.Clean := by decide
  have triggers : (ofConcepts interleaved).triggers = deinterleaved := by decide
  obtain ⟨⟨-, -, -, perm, -⟩, -, states, back⟩ := ofConcepts_lossless clean
  rw [triggers] at states back
  exact ⟨by decide, by decide, perm, triggers, states, back⟩

end Separation

end ConceptSpace
