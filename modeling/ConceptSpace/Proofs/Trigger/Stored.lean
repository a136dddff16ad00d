import ConceptSpace.Proofs.Facts.SingleRule
import ConceptSpace.Proofs.Trigger.Components

/-!
# Triggers among the facts

The triggers of a fact base are looked up with one rule for each role. They state just the
components that are facts (`Indexed.exists_triggers_eq`), wherever these come from: a component that
stands inside a fact is a fact, too.
-/

namespace ConceptSpace.FactBase

open Storage
open ConceptSpace.Concept (ReadsAs HasPlainWord IsDeterminate)

variable {t : Table} {facts : Finset Concept} {role : Role} {d : Component} {c : Concept}
  {b : Bindings}

/-! ## The rule for a role -/

theorem componentRule_eq (role : Role) : componentRule role = .compound
    [.atom "$trigger", .compound [.atom role.directive, .atom "$arg"]] :=
  Component.toConcept_eq _

theorem clean_componentRule (role : Role) : (componentRule role).Clean := by
  cases role <;> decide

theorem isPattern_componentRule (role : Role) : (componentRule role).isPattern = true := by
  cases role <;> decide

theorem hasPlainWord_componentRule (role : Role) : (componentRule role).HasPlainWord :=
  ⟨role.directive, by simp [componentRule_eq], by cases role <;> decide⟩

theorem isDeterminate_componentRule (role : Role) : (componentRule role).IsDeterminate := by
  cases role <;> decide

theorem readsAs_pair_iff {p q : Concept} (h : Concept.Clean (.compound [p, q]))
    (noSet : Concept.isSet (.compound [p, q]) = false) : ReadsAs b (.compound [p, q]) c ↔
      ∃ x y, c = .compound [x, y] ∧ ReadsAs b p x ∧ ReadsAs b q y := by
  rw [h.readsAs_sequence_iff noSet]
  constructor
  · rintro ⟨_, rfl, _ | ⟨first, _ | ⟨second, _ | _⟩⟩⟩
    exact ⟨_, _, rfl, first, second⟩
  · rintro ⟨x, y, rfl, first, second⟩
    exact ⟨_, rfl, .cons first (.cons second .nil)⟩

/-- The rule for a role reads as the components of the role, with their names and arguments
bound. -/
theorem readsAs_componentRule_iff : ReadsAs b (componentRule role) c ↔ ∃ d : Component,
    d.role = role ∧ c = d.toConcept ∧ b["$trigger"]? = some d.trigger ∧
      b["$arg"]? = some d.argument := by
  have clean := clean_componentRule role
  have isWord : Concept.startsWith '$' role.directive = false := by cases role <;> decide
  have inner : Concept.Clean (.compound [.atom role.directive, .atom "$arg"]) :=
    (componentRule_eq role ▸ clean).of_mem (by simp)
  have noSet : Concept.isSet (.compound [.atom role.directive, .atom "$arg"]) = false := by
    cases role <;> decide
  rw [componentRule_eq] at clean ⊢
  rw [readsAs_pair_iff clean rfl]
  simp only [readsAs_pair_iff inner noSet, Concept.readsAs_word_iff isWord,
    Concept.readsAs_variable_iff (show Concept.startsWith '$' "$trigger" = true from rfl),
    Concept.readsAs_variable_iff (show Concept.startsWith '$' "$arg" = true from rfl)]
  constructor
  · rintro ⟨trigger, _, rfl, name, _, argument, rfl, rfl, bound⟩
    exact ⟨⟨trigger, role, argument⟩, rfl,
      (Component.toConcept_eq ⟨trigger, role, argument⟩).symm, name, bound⟩
  · rintro ⟨d, rfl, rfl, name, argument⟩
    exact ⟨_, _, Component.toConcept_eq d, name, _, _, rfl, rfl, argument⟩

theorem componentOf?_eq_some_iff : componentOf? role b = some d ↔
    d.role = role ∧ b["$trigger"]? = some d.trigger ∧ b["$arg"]? = some d.argument := by
  have keys : triggerVariable.key = "$trigger" ∧ argumentVariable.key = "$arg" := ⟨rfl, rfl⟩
  rw [componentOf?, keys.1, keys.2]
  cases b["$trigger"]? <;> cases b["$arg"]? <;> cases d <;> simp [and_left_comm, eq_comm]

/-- Fitting the rule for a role to a concept finds the component that the concept states. -/
theorem exists_match?_componentRule_iff (hc : c.Clean) :
    (∃ b, c.match? (componentRule role) = some b ∧ componentOf? role b = some d) ↔
      d.role = role ∧ c = d.toConcept := by
  have matched := fun b => (clean_componentRule role).match?_eq_some_iff_of_isDeterminate
    (isDeterminate_componentRule role) hc (b := b)
  constructor
  · rintro ⟨b, found, stated⟩
    obtain ⟨e, rfl, rfl, name, argument⟩ := readsAs_componentRule_iff.mp ((matched b).mp found).1
    obtain ⟨same, name', argument'⟩ := componentOf?_eq_some_iff.mp stated
    obtain rfl : d = e := by
      cases d
      cases e
      simp_all
    exact ⟨rfl, rfl⟩
  · rintro ⟨rfl, rfl⟩
    let b : Bindings := ((∅ : Bindings).insert "$trigger" d.trigger).insert "$arg" d.argument
    have name : b["$trigger"]? = some d.trigger := by
      rw [Std.ExtTreeMap.getElem?_insert, if_neg (by decide), Std.ExtTreeMap.getElem?_insert_self]
    have argument : b["$arg"]? = some d.argument := Std.ExtTreeMap.getElem?_insert_self
    have others : ∀ other : String, b[other]? ≠ none → other = "$trigger" ∨ other = "$arg" := by
      intro other bound
      by_contra absent
      obtain ⟨first, second⟩ : other ≠ "$trigger" ∧ other ≠ "$arg" := by simpa using absent
      simp [b, first.symm, second.symm] at bound
    obtain ⟨cleanName, cleanArgument⟩ := Component.IsClean.of_toConcept hc
    have reads := readsAs_componentRule_iff.mpr ⟨d, rfl, rfl, name, argument⟩
    refine ⟨b, (matched b).mpr ⟨reads, ?_, ?_⟩,
      componentOf?_eq_some_iff.mpr ⟨rfl, name, argument⟩⟩
    · intro other value e
      rcases others other (by simp [e]) with rfl | rfl
      · exact Option.some.inj (name.symm.trans e) ▸ cleanName
      · exact Option.some.inj (argument.symm.trans e) ▸ cleanArgument
    · intro other bound
      have vars : (componentRule d.role).vars = ["$trigger", "$arg"] := by
        cases d.role <;> decide
      simpa [vars] using others other bound

/-! ## All components -/

/-- The components of a role that are found are the facts of this form. -/
theorem Indexed.exists_components_eq (h : Indexed t facts) (base : FactBase) (role : Role) :
    ∃ found, (do return (← base.answers t [componentRule role] true).filterMap (componentOf? role) :
      Except Error (List Component)) = .ok found ∧
        ∀ d, d ∈ found ↔ d.role = role ∧ d.toConcept ∈ facts := by
  obtain ⟨found, e, mem_found⟩ := h.exists_answers_match base (clean_componentRule role)
    (isPattern_componentRule role) (hasPlainWord_componentRule role)
    (isDeterminate_componentRule role) true
  refine ⟨found.filterMap (componentOf? role), by rw [e]; rfl, fun d => ?_⟩
  simp only [List.mem_filterMap, mem_found, Bool.true_or, true_and]
  constructor
  · rintro ⟨b, ⟨c, hc, matched⟩, stated⟩
    obtain ⟨role, rfl⟩ :=
      (exists_match?_componentRule_iff (h.storable c hc).clean).mp ⟨b, matched, stated⟩
    exact ⟨role, hc⟩
  · rintro ⟨role, hd⟩
    obtain ⟨b, matched, stated⟩ :=
      (exists_match?_componentRule_iff (h.storable _ hd).clean).mpr ⟨role, rfl⟩
    exact ⟨b, ⟨_, hd, matched⟩, stated⟩

/-- The triggers that are found have different names and state just the components that are
facts. -/
theorem Indexed.exists_triggers_eq (h : Indexed t facts) (base : FactBase) :
    ∃ found, base.triggers t = .ok found ∧ Trigger.AreClean found ∧
      ∀ d, Trigger.IsStated found d ↔ d.toConcept ∈ facts := by
  obtain ⟨lists, e, related⟩ := Sequence.exists_mapM_eq_ok
    fun role (_ : role ∈ Role.all) => h.exists_components_eq base role
  have mem : ∀ d, d ∈ lists.flatten ↔ d.toConcept ∈ facts := by
    intro d
    rw [List.mem_flatten]
    constructor
    · rintro ⟨ds, hl, hd⟩
      obtain ⟨role, -, mem_ds⟩ := Sequence.exists_of_mem_right related hl
      exact ((mem_ds d).mp hd).2
    · intro hd
      obtain ⟨ds, hl, mem_ds⟩ :=
        Sequence.exists_of_mem_left related (show d.role ∈ Role.all by cases d.role <;> decide)
      exact ⟨ds, hl, (mem_ds d).mpr ⟨rfl, hd⟩⟩
  have clean : ∀ d ∈ lists.flatten, d.IsClean := fun d hd =>
    .of_toConcept (h.storable _ ((mem d).mp hd)).clean
  refine ⟨_, by rw [triggers, e]; rfl, Trigger.areClean_ofComponents clean, fun d => ?_⟩
  rw [Trigger.isStated_ofComponents_iff clean, mem]

end ConceptSpace.FactBase
