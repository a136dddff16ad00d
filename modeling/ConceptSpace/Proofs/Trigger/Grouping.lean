import Mathlib.Data.List.Induction
import ConceptSpace.Proofs.Concept.Inside
import ConceptSpace.Trigger.Basic

/-!
# Grouping components into triggers

Components are put in one after the other, and what comes of this is said at once: there is a
trigger for each name, in the order in which the names first occur (`ofComponents_eq`), and its
arguments of a role stand in the order in which they first occur under the name
(`arguments_gathered`). Listed trigger by trigger and role by role, the components of such triggers
are grouped into the same triggers (`ofComponents_flatMap_stated`).
-/

namespace ConceptSpace.Trigger

open ConceptSpace.Concept (distinct)

variable {t : Trigger} {ts : List Trigger} {d : Component} {ds : List Component}

/-! ## The trigger of one name -/

theorem any_same_distinct (as : List Concept) (a : Concept) :
    (distinct as).any (·.same a) = true ↔ a.key ∈ as.map Concept.key := by
  rw [← Sequence.mem_keys_distinctBy, List.any_eq_true, List.mem_map]
  simp only [Concept.same, beq_iff_eq]
  rfl

/-- Of a list with one more concept at the end, the first of each key are those of the list, and the
last one if its key is new. -/
theorem appendNew_distinct (as : List Concept) (a : Concept) :
    appendNew (distinct as) a = distinct (as ++ [a]) := by
  have known := any_same_distinct as a
  have joined : distinct (as ++ [a]) =
      distinct as ++ (distinct [a]).filter fun b => b.key ∉ as.map Concept.key :=
    Sequence.distinctBy_append as [a]
  rw [joined, Concept.distinct_singleton, appendNew]
  by_cases h : a.key ∈ as.map Concept.key
  · rw [if_pos (known.mpr h), List.filter_cons_of_neg (by simpa using h), List.filter_nil,
      List.append_nil]
  · rw [if_neg (mt known.mp h), List.filter_cons_of_pos (by simpa using h), List.filter_nil]

theorem appendNew_cons (as : List Concept) (a c : Concept) :
    appendNew (a :: as) c = if a.same c then a :: as else a :: appendNew as c := by
  rw [appendNew, appendNew, List.any_cons]
  cases a.same c with
  | true => rfl
  | false =>
    rw [Bool.false_or]
    split <;> rfl

@[simp] theorem name_push (t : Trigger) (role : Role) (a : Concept) :
    (t.push role a).name = t.name := by
  cases role <;> rfl

theorem arguments_push (t : Trigger) (role other : Role) (a : Concept) :
    (t.push role a).arguments other =
      if role = other then appendNew (t.arguments other) a else t.arguments other := by
  cases role <;> cases other <;> rfl

theorem ext_arguments {u : Trigger} (name : t.name = u.name)
    (arguments : ∀ role, t.arguments role = u.arguments role) : t = u := by
  cases t
  cases u
  have conditions := arguments .condition
  have additions := arguments .addition
  have removals := arguments .removal
  have notifications := arguments .notification
  simp_all [Trigger.arguments]

/-- The trigger of a name that components define together. -/
def gathered (name : Concept) (ds : List Component) : Trigger :=
  ds.foldl (fun t d => t.push d.role d.argument) { name := name }

theorem gathered_append (name : Concept) (ds : List Component) (d : Component) :
    gathered name (ds ++ [d]) = (gathered name ds).push d.role d.argument := by
  rw [gathered, List.foldl_append]
  rfl

@[simp] theorem name_gathered (name : Concept) (ds : List Component) :
    (gathered name ds).name = name := by
  induction ds using List.reverseRecOn with
  | nil => rfl
  | append_singleton ds d ih => rw [gathered_append, name_push, ih]

/-- The arguments of a role, in the order in which they first occur. -/
theorem arguments_gathered (name : Concept) (ds : List Component) (role : Role) :
    (gathered name ds).arguments role =
      distinct ((ds.filter (·.role = role)).map (·.argument)) := by
  induction ds using List.reverseRecOn with
  | nil => cases role <;> rfl
  | append_singleton ds d ih =>
    rw [gathered_append, arguments_push, ih, List.filter_append, List.map_append]
    by_cases own : d.role = role
    · rw [if_pos own, List.filter_cons_of_pos (by simpa using own), List.filter_nil]
      exact appendNew_distinct _ _
    · rw [if_neg own, List.filter_cons_of_neg (by simpa using own), List.filter_nil, List.map_nil,
        List.append_nil]

/-! ## Triggers by name -/

/-- Where triggers are given by their names, a component adds its name and changes the trigger of
it. -/
theorem insert_map {names : List Concept} {f : Concept → Trigger} (named : ∀ n, (f n).name = n)
    (fresh : names.any (·.same d.trigger) = false → f d.trigger = { name := d.trigger })
    (nodup : (names.map Concept.key).Nodup) :
    insert d (names.map f) = (appendNew names d.trigger).map fun n =>
      if n.same d.trigger then (f n).push d.role d.argument else f n := by
  induction names with
  | nil =>
    have start : f d.trigger = { name := d.trigger } := fresh rfl
    simp [insert, appendNew, Concept.same, start]
  | cons n names ih =>
    obtain ⟨first, nodup⟩ := List.nodup_cons.mp nodup
    rw [List.map_cons, insert, named, appendNew_cons]
    by_cases same : n.same d.trigger = true
    · -- The trigger is found here, and the names behind it have other keys.
      have others : ∀ m ∈ names, ¬ m.same d.trigger = true := by
        intro m hm again
        have keys : m.key = n.key := (beq_iff_eq.mp again).trans (beq_iff_eq.mp same).symm
        exact first (keys ▸ List.mem_map_of_mem hm)
      rw [if_pos same, if_pos same, List.map_cons, if_pos same]
      refine congrArg (_ :: ·) (List.map_congr_left fun m hm => ?_)
      rw [if_neg (others m hm)]
    · have later : names.any (·.same d.trigger) = false → f d.trigger = { name := d.trigger } := by
        intro none
        refine fresh ?_
        rw [List.any_cons, none, Bool.or_false]
        simpa using same
      rw [if_neg same, if_neg same, List.map_cons, if_neg same, ih later nodup]

/-- The components that name a trigger. -/
def componentsOf (ds : List Component) (name : Concept) : List Component :=
  ds.filter fun d => name.same d.trigger

theorem componentsOf_append (ds : List Component) (d : Component) (name : Concept) :
    componentsOf (ds ++ [d]) name =
      if name.same d.trigger then componentsOf ds name ++ [d] else componentsOf ds name := by
  rw [componentsOf, List.filter_append, List.filter_singleton]
  cases name.same d.trigger with
  | true => rfl
  | false => exact List.append_nil _

/-- Components define a trigger for each name, in the order in which the names first occur. -/
theorem ofComponents_eq (ds : List Component) : ofComponents ds =
    (distinct (ds.map (·.trigger))).map fun name => gathered name (componentsOf ds name) := by
  induction ds using List.reverseRecOn with
  | nil => rfl
  | append_singleton ds d ih =>
    have step : ofComponents (ds ++ [d]) = insert d (ofComponents ds) := by
      rw [ofComponents, List.foldl_append]
      rfl
    have nodup : ((distinct (ds.map (·.trigger))).map Concept.key).Nodup :=
      Sequence.nodup_keys_distinctBy _ _
    have fresh : (distinct (ds.map (·.trigger))).any (·.same d.trigger) = false →
        gathered d.trigger (componentsOf ds d.trigger) = { name := d.trigger } := by
      -- A name that is not there yet has no components so far.
      intro none
      have unnamed : componentsOf ds d.trigger = [] := by
        refine List.filter_eq_nil_iff.mpr fun e he same => ?_
        have named : d.trigger.key ∈ (ds.map (·.trigger)).map Concept.key :=
          List.mem_map.mpr ⟨e.trigger, List.mem_map_of_mem he, (beq_iff_eq.mp same).symm⟩
        rw [(any_same_distinct _ _).mpr named] at none
        cases none
      rw [unnamed]
      rfl
    rw [step, ih, insert_map (fun name => name_gathered ..) fresh nodup, appendNew_distinct,
      List.map_append, List.map_singleton]
    refine List.map_congr_left fun name _ => ?_
    rw [componentsOf_append]
    by_cases own : name.same d.trigger = true
    · rw [if_pos own, if_pos own, gathered_append]
    · rw [if_neg own, if_neg own]

theorem names_ofComponents (ds : List Component) :
    (ofComponents ds).map (·.name) = distinct (ds.map (·.trigger)) := by
  rw [ofComponents_eq, List.map_map]
  exact (List.map_congr_left fun name _ => name_gathered ..).trans (List.map_id _)

theorem mem_ofComponents_iff : t ∈ ofComponents ds ↔
    ∃ name ∈ distinct (ds.map (·.trigger)), t = gathered name (componentsOf ds name) := by
  rw [ofComponents_eq, List.mem_map]
  simp only [eq_comm]

/-- Components define no trigger under a name that none of them gives. -/
theorem exists_component_of_mem_ofComponents (ht : t ∈ ofComponents ds) :
    ∃ d ∈ ds, d.trigger = t.name := by
  have name : t.name ∈ distinct (ds.map (·.trigger)) := by
    rw [← names_ofComponents]
    exact List.mem_map_of_mem ht
  exact List.mem_map.mp ((Concept.distinct_sublist _).subset name)

/-- The arguments of a trigger are those of components that name it. -/
theorem exists_component_of_mem_arguments (ht : t ∈ ofComponents ds) {role : Role} {a : Concept}
    (ha : a ∈ t.arguments role) :
    ∃ d ∈ ds, t.name.same d.trigger = true ∧ d.role = role ∧ d.argument = a := by
  obtain ⟨name, -, rfl⟩ := mem_ofComponents_iff.mp ht
  rw [arguments_gathered] at ha
  obtain ⟨d, hd, argument⟩ := List.mem_map.mp ((Concept.distinct_sublist _).subset ha)
  obtain ⟨hd, own⟩ := List.mem_filter.mp hd
  obtain ⟨hd, named⟩ := List.mem_filter.mp hd
  refine ⟨d, hd, ?_, of_decide_eq_true own, argument⟩
  rwa [name_gathered]

/-! ## Triggers listed and grouped again -/

/-- Triggers as components define them: no key of a name comes twice, none of an argument in a role,
and each trigger has an argument. -/
structure AreGathered (ts : List Trigger) : Prop where
  /-- No two names have one key. -/
  names : ((ts.map (·.name)).map Concept.key).Nodup
  /-- No two arguments of a role have one key. -/
  arguments : ∀ t ∈ ts, ∀ role, ((t.arguments role).map Concept.key).Nodup
  /-- No trigger is without arguments. -/
  defined : ∀ t ∈ ts, ∃ role, t.arguments role ≠ []

theorem areGathered_ofComponents (ds : List Component) : AreGathered (ofComponents ds) where
  names := by
    rw [names_ofComponents]
    exact Sequence.nodup_keys_distinctBy _ _
  arguments t ht role := by
    obtain ⟨name, -, rfl⟩ := mem_ofComponents_iff.mp ht
    rw [arguments_gathered]
    exact Sequence.nodup_keys_distinctBy _ _
  defined t ht := by
    obtain ⟨name, hn, rfl⟩ := mem_ofComponents_iff.mp ht
    obtain ⟨d, hd, rfl⟩ := List.mem_map.mp ((Concept.distinct_sublist _).subset hn)
    refine ⟨d.role, ?_⟩
    rw [arguments_gathered, Ne, Concept.distinct_eq_nil_iff]
    refine List.ne_nil_of_mem (List.mem_map_of_mem (a := d) ?_)
    simp [componentsOf, hd, Concept.same]

/-- The components that define a trigger, by role. -/
def stated (t : Trigger) : List Component :=
  Role.all.flatMap fun role => (t.arguments role).map fun a => ⟨t.name, role, a⟩

theorem components_eq_map (t : Trigger) : t.components = t.stated.map Component.toConcept := by
  rw [components, stated, List.map_flatMap]
  simp [Function.comp_def]

theorem mem_stated_iff : d ∈ t.stated ↔ t.name = d.trigger ∧ d.argument ∈ t.arguments d.role := by
  have listed : ∀ role, role ∈ Role.all := by
    intro role
    cases role <;> decide
  cases d
  simp [stated, listed, and_comm]

theorem gathered_stated (nodup : ∀ role, ((t.arguments role).map Concept.key).Nodup) :
    gathered t.name t.stated = t := by
  refine ext_arguments (name_gathered ..) fun role => ?_
  have own : (t.stated.filter (·.role = role)).map (·.argument) = t.arguments role := by
    cases role <;> simp [stated, Role.all, List.filter_map, Function.comp_def]
  rw [arguments_gathered, own, Concept.distinct_eq_self (nodup role)]

/-- A component of another name leaves the triggers in front alone. -/
theorem insert_append {us : List Trigger} (others : ∀ t ∈ ts, t.name.same d.trigger = false) :
    insert d (ts ++ us) = ts ++ insert d us := by
  induction ts with
  | nil => rfl
  | cons t ts ih =>
    have other : ¬ t.name.same d.trigger = true := by simp [others t (by simp)]
    rw [List.cons_append, insert, if_neg other, ih fun u hu => others u (by simp [hu])]
    rfl

theorem foldl_insert_append {us : List Trigger}
    (others : ∀ t ∈ ts, ∀ d ∈ ds, t.name.same d.trigger = false) :
    ds.foldl (fun ts d => insert d ts) (ts ++ us) =
      ts ++ ds.foldl (fun ts d => insert d ts) us := by
  induction ds generalizing us with
  | nil => rfl
  | cons d ds ih =>
    rw [List.foldl_cons, List.foldl_cons, insert_append fun t ht => others t ht d (by simp)]
    exact ih fun t ht e he => others t ht e (by simp [he])

theorem ofComponents_of_one_name {name : Concept} (own : ∀ d ∈ ds, d.trigger = name)
    (some : ds ≠ []) : ofComponents ds = [gathered name ds] := by
  have once : distinct (ds.map (·.trigger)) = [name] := by
    obtain ⟨d, more, rfl⟩ := List.exists_cons_of_ne_nil some
    have again : ∀ a ∈ more.map (·.trigger), a.key ∈ [name].map Concept.key := by
      intro a ha
      obtain ⟨e, he, rfl⟩ := List.mem_map.mp ha
      simp [own e (by simp [he])]
    rw [List.map_cons, own d (by simp), ← Concept.distinct_singleton name]
    exact Sequence.distinctBy_append_of_subset again
  have all : componentsOf ds name = ds :=
    List.filter_eq_self.mpr fun d hd => by simp [own d hd, Concept.same]
  rw [ofComponents_eq, once, List.map_singleton, all]

/-- Triggers that components defined are defined by their own components again. -/
theorem ofComponents_flatMap_stated (h : AreGathered ts) :
    ofComponents (ts.flatMap stated) = ts := by
  induction ts with
  | nil => rfl
  | cons t ts ih =>
    obtain ⟨first, names⟩ := List.nodup_cons.mp h.names
    -- The components of the first trigger come first and make it; the others have other names.
    have own : ofComponents t.stated = [t] := by
      obtain ⟨role, some⟩ := h.defined t (by simp)
      obtain ⟨a, ha⟩ := List.exists_mem_of_ne_nil _ some
      have one : t.stated ≠ [] :=
        List.ne_nil_of_mem (mem_stated_iff.mpr ⟨rfl, ha⟩ : (⟨t.name, role, a⟩ : Component) ∈ _)
      rw [ofComponents_of_one_name (fun d hd => (mem_stated_iff.mp hd).1.symm) one,
        gathered_stated (h.arguments t (by simp))]
    have others : ∀ u ∈ [t], ∀ d ∈ ts.flatMap stated, u.name.same d.trigger = false := by
      intro u hu d hd
      obtain rfl := List.mem_singleton.mp hu
      obtain ⟨v, hv, hd⟩ := List.mem_flatMap.mp hd
      rw [← (mem_stated_iff.mp hd).1, Concept.same, beq_eq_false_iff_ne]
      exact fun same => first (same ▸ List.mem_map_of_mem (List.mem_map_of_mem hv))
    have rest : AreGathered ts :=
      ⟨names, fun u hu => h.arguments u (by simp [hu]), fun u hu => h.defined u (by simp [hu])⟩
    have again : ofComponents (ts.flatMap stated) = ts := ih rest
    rw [List.flatMap_cons, ofComponents, List.foldl_append]
    change (ts.flatMap stated).foldl (fun ts d => insert d ts) (ofComponents t.stated) = t :: ts
    rw [own, ← List.append_nil [t], foldl_insert_append others]
    exact congrArg (t :: ·) again

end ConceptSpace.Trigger
