import ConceptSpace.Proofs.Facts.CleanTables
import ConceptSpace.Proofs.Facts.Join

/-!
# Branches that no query takes

A query is prepared for a pivot that does not fit its own mask, and for a pivot that has something
else than a variable at a number of its mask. Neither occurs with clean pivots: the mask fits, and
all its numbers stand for variables (`Concept.Clean.exists_match?_mask_eq`). What a query would do
there is a *detour*, which can be anything, a failure of the whole query included. The answers do
not depend on the detours of clean pivots, over whatever table (`detours_not_taken`); and if the
table and the rules are clean, there are no other pivots.
-/

namespace ConceptSpace.FactBase

open Storage
open ConceptSpace.Concept (IsPlainFact IsRule)
open Shape (namesFrom)

/-! ## Detours -/

/-- What is done at a pivot in two cases that a query is prepared for. -/
structure Detour where
  /-- The outcome if the pivot does not fit its own mask. -/
  misfit : Except Error (List Bindings)
  /-- What becomes of the bindings made so far, if the pivot has something else than a variable at
  a number of its mask, and an index entry has a value for the number. -/
  fixedPart (place value : Concept) (b : Bindings) : Except Error (Option Bindings)

namespace Detour

/-- What a query does in these cases: there are no answers, and the value has to be the part. -/
def usual : Detour where
  misfit := .ok []
  fixedPart place value b := .ok (if place.same value then some b else none)

variable (d : Detour)

/-- One step of `bindEntry`. -/
def bindPlace (places b : Bindings) (entry : Nat × Concept) : Except Error (Option Bindings) :=
  match places[(Concept.numberedVariable entry.1).key]? with
  | none => .ok none
  | some place =>
    if place.isVariable then .ok (b.bind? place.key entry.2) else d.fixedPart place entry.2 b

/-- The bindings that an index entry gives to the variables of a rule, as by
`FactBase.bindEntry`. -/
def bindEntry (places : Bindings) (values : List Concept) : Except Error (Option Bindings) :=
  OptionT.run <| (values.mapIdx fun i value => (i, value)).foldlM
    (fun b entry => OptionT.mk (d.bindPlace places b entry)) ∅

/-- The answers that an index entry of a pivot leads to, as by `FactBase.answersOfEntry`. -/
def answersOfEntry (partials : Bool) (answer : List Concept → Except Error (List Bindings))
    (places : Bindings) (rest values : List Concept) : Except Error (List Bindings) := do
  match ← d.bindEntry places values with
  | none => return []
  | some candidate => do
    if !partials && !candidate.isGround then return []
    completedBy answer candidate rest

end Detour

section

variable (detour : Concept → Detour) (base : FactBase) (t : Table) (partials : Bool)

/-- The answers to rules, as by `answersWithin`, with a detour for each pivot. -/
def answersWithinBy : Nat → List Concept → Except Error (List Bindings)
  | 0, _ => .error .endlessQuery
  | depth + 1, rules => do
    let (patterns, ground) := (Concept.distinct rules).partition (·.isPattern)
    if (base.existing t ground).length < ground.length then return []
    match ← pivot t patterns with
    | none => return [∅]
    | some (mask, rule, rest) =>
      match rule.match? mask with
      | none => (detour rule).misfit
      | some places =>
        let answers ← (← maskEntries t mask).mapM
          ((detour rule).answersOfEntry partials (answersWithinBy depth) places rest)
        return answers.flatten.filter fun answer => partials || answer.isGround

/-- The answers to rules, as by `answers`, with a detour for each pivot. -/
noncomputable def answersBy (rules : List Concept) : Except Error (List Bindings) :=
  Search.limit fun depth => answersWithinBy detour base t partials depth rules

end

/-! ## Index entries -/

/-- The usual step is that of a query. -/
theorem Detour.usual_bindPlace (places b : Bindings) (entry : Nat × Concept) :
    usual.bindPlace places b entry = .ok (FactBase.bindPlace places b entry) := by
  rw [Detour.bindPlace, FactBase.bindPlace]
  cases places[(Concept.numberedVariable entry.1).key]? with
  | none => rfl
  | some place =>
    simp only [Option.bind_eq_bind, Option.bind_some]
    split <;> rfl

/-- The detour is not taken at places of variables. -/
theorem Detour.bindPlace_of_allValues (d : Detour) {places : Bindings}
    (isVariable : places.AllValues (·.isVariable = true)) (b : Bindings) (entry : Nat × Concept) :
    d.bindPlace places b entry = .ok (FactBase.bindPlace places b entry) := by
  rw [← usual_bindPlace, Detour.bindPlace, Detour.bindPlace]
  split
  case h_1 => rfl
  case h_2 place e => rw [if_pos (isVariable e), if_pos (isVariable e)]

/-- An entry is read as usual, if there is no other detour or there are variables at all places. -/
theorem Detour.bindEntry_eq {d : Detour} {places : Bindings}
    (h : d = usual ∨ places.AllValues (·.isVariable = true)) (values : List Concept) :
    d.bindEntry places values = .ok (FactBase.bindEntry places values) := by
  refine Sequence.run_foldlM_mk (fun b entry => ?_) _ _
  rcases h with rfl | isVariable
  · exact usual_bindPlace places b entry
  · exact d.bindPlace_of_allValues isVariable b entry

/-! ## Pivots -/

variable {detour : Concept → Detour} {base : FactBase} {t : Table} {partials : Bool}

/-- Only clean pivots are left for detours: at others the usual is done, or the table and the rules
are clean, and with them all pivots. -/
def DepartsAtClean (detour : Concept → Detour) (t : Table) (rules : List Concept) : Prop :=
  (∀ rule, rule.Clean ∨ detour rule = .usual) ∨ IsClean t ∧ ∀ r ∈ rules, r.Clean

theorem DepartsAtClean.pivot {rules : List Concept} {rule : Concept}
    (h : DepartsAtClean detour t rules) (hr : rule ∈ rules) : rule.Clean ∨ detour rule = .usual :=
  h.elim (fun each => each rule) fun ⟨_, clean⟩ => .inl (clean rule hr)

theorem DepartsAtClean.mono {rules fewer : List Concept} (h : DepartsAtClean detour t rules)
    (among : ∀ r ∈ fewer, r ∈ rules) : DepartsAtClean detour t fewer :=
  h.imp_right fun ⟨cleanTable, clean⟩ => ⟨cleanTable, fun r hr => clean r (among r hr)⟩

/-- What an index entry makes of the remaining rules leaves no other pivots for detours. -/
theorem DepartsAtClean.remaining {rest values remaining : List Concept} {mask : Concept}
    {entries : List (List Concept)} {places cand : Bindings} (h : DepartsAtClean detour t rest)
    (listed : maskEntries t mask = .ok entries) (hv : values ∈ entries)
    (bound : FactBase.bindEntry places values = some cand)
    (e : Source.substitute cand.values rest = .ok remaining) :
    DepartsAtClean detour t remaining := by
  refine h.imp_right fun ⟨cleanTable, clean⟩ => ⟨cleanTable, ?_⟩
  have cleanCand : cand.AllValues Concept.Clean :=
    allValues_of_bindEntry (cleanTable.clean_of_maskEntries mask entries listed values hv) bound
  exact Source.clean_of_substitute clean (fun _ _ hm => cleanCand (Bindings.mem_values_iff.mp hm)) e

/-- The detour of a pivot is not taken, if the pivot is clean or there is no other detour than
usual. -/
theorem match?_mask_cases {rule : Concept} (h : rule.Clean ∨ detour rule = .usual) :
    (rule.match? rule.mask = none ∧ detour rule = .usual) ∨
      ∃ places, rule.match? rule.mask = some places ∧
        (detour rule = .usual ∨ places.AllValues (·.isVariable = true)) := by
  rcases h with clean | usual
  · obtain ⟨names, perm, found⟩ := clean.exists_match?_mask_eq
    refine .inr ⟨_, found, .inr (Bindings.allValues_numbered.mpr fun value hv => ?_)⟩
    obtain ⟨name, hn, rfl⟩ := List.mem_map.mp hv
    exact (List.mem_filter.mp (perm.mem_iff.mp hn)).2
  · cases found : rule.match? rule.mask with
    | none => exact .inl ⟨rfl, usual⟩
    | some places => exact .inr ⟨places, rfl, .inl usual⟩

/-- What an index entry of a pivot leads to is the same without the detour, if it is so for the
remaining rules. -/
theorem answersOfEntry_eq {d : Detour} {depth : Nat} {mask : Concept} {places : Bindings}
    {rest values : List Concept} {entries : List (List Concept)}
    (straight : d = .usual ∨ places.AllValues (·.isVariable = true))
    (departs : DepartsAtClean detour t rest)
    (answered : ∀ rules : List Concept, DepartsAtClean detour t rules →
      answersWithinBy detour base t partials depth rules =
        base.answersWithin t partials depth rules)
    (listed : maskEntries t mask = .ok entries) (hv : values ∈ entries) :
    d.answersOfEntry partials (answersWithinBy detour base t partials depth) places rest values =
      base.answersOfEntry t partials depth places rest values := by
  rw [Detour.answersOfEntry, FactBase.answersOfEntry, Detour.bindEntry_eq straight,
    Sequence.ok_bind]
  cases bound : FactBase.bindEntry places values with
  | none => rfl
  | some cand =>
    simp only
    split
    · rfl
    · exact completedBy_congr fun remaining e => answered _ (departs.remaining listed hv bound e)

/-- No detour of a search is taken, if only clean pivots are left for detours. -/
theorem answersWithinBy_eq {depth : Nat} {rules : List Concept}
    (h : DepartsAtClean detour t rules) :
    answersWithinBy detour base t partials depth rules =
      base.answersWithin t partials depth rules := by
  -- By the pivots that are left. The first one takes no detour, and what its entries make of the
  -- remaining rules leaves no other pivots for detours.
  induction depth generalizing rules with
  | zero => rfl
  | succ depth ih =>
    rw [answersWithinBy, answersWithin, List.partition_eq_filter_filter]
    simp only
    split
    · rfl
    cases chosen : pivot t ((Concept.distinct rules).filter (·.isPattern)) with
    | error => rfl
    | ok choice =>
      cases choice with
      | none => rfl
      | some choice =>
        obtain ⟨mask, rule, rest⟩ := choice
        obtain ⟨rfl, perm⟩ := perm_of_pivot chosen
        have departs : DepartsAtClean detour t (rule :: rest) := h.mono fun r hr =>
          (Concept.distinct_sublist rules).subset (List.mem_filter.mp (perm.subset hr)).1
        have others := departs.mono fun r hr => List.mem_cons_of_mem rule hr
        simp only [Sequence.ok_bind]
        rcases match?_mask_cases (departs.pivot (List.mem_cons_self ..)) with
          ⟨none, usual⟩ | ⟨places, found, straight⟩
        · simp only [none, usual]
          rfl
        simp only [found]
        cases listed : maskEntries t rule.mask with
        | error => rfl
        | ok entries =>
          have each : ∀ values ∈ entries, (detour rule).answersOfEntry partials
              (answersWithinBy detour base t partials depth) places rest values =
                base.answersOfEntry t partials depth places rest values := fun values hv =>
            answersOfEntry_eq straight others (fun _ => ih) listed hv
          simp only [Sequence.ok_bind, Sequence.mapM_congr each]
          rfl

/-- No detour of a query is taken either. -/
theorem answersBy_eq {rules : List Concept} (h : DepartsAtClean detour t rules) :
    answersBy detour base t partials rules = base.answers t rules partials := by
  rw [answersBy, answers_eq_limit, funext fun depth => answersWithinBy_eq h]

/-! ## Main statement -/

/-- The mask of a clean pattern numbers its variables from zero on and fits the pattern, with the
variables of the pattern at the numbers, each as often as it occurs. So queries neither meet a clean
pivot that does not fit its own mask nor find anything else than variables at the numbers: whatever
were done then, the outcome is that of `answers`. -/
theorem detours_not_taken {p : Concept} (hp : p.Clean) :
    p.mask.vars.Perm (namesFrom 0 p.vars.length) ∧
      (∃ names : List String, names.Perm p.vars ∧
        p.match? p.mask = some (.numbered 0 (names.map .atom))) ∧
      ∀ (detour : Concept → Detour) (base : FactBase) (t : Table) (partials : Bool)
        (rules : List Concept), DepartsAtClean detour t rules →
          answersBy detour base t partials rules = base.answers t rules partials :=
  ⟨hp.vars_mask_perm, hp.exists_match?_mask_eq, fun _ _ _ _ _ h => answersBy_eq h⟩

/-- A compound of a single part, which no constructor makes, has no variable at the number of its
mask. -/
example : ((Concept.compound [.atom "$x"]).match? (Concept.compound [.atom "$x"]).mask).any
    (·.range.any (·.isCompound)) = true := by decide

/-- A pattern that its mask fits only if the first choice is taken back: the first number of
`: $0 [$1 $2]` fits `$a $a`, too, but nothing is left for the others then. -/
private def coupled : Concept :=
  .compound [.atom ":", .compound [.atom "$a", .atom "$a"], .atom "$b"]

private def sights : List Concept :=
  [.compound [.atom "see", .atom "ann"], .compound [.atom "ann", .atom "here"]]

private def tableOf (cs : List Concept) : Table :=
  ((Change.add cs).run ⟨"home", 2⟩ (Store.create .memory)).2.table

/-- Rules that share a variable, so that one of them is asked for after the other. -/
private def sightRules : List Concept :=
  [.compound [.atom "see", .atom "$who"], .compound [.atom "$who", .atom "here"]]

/-- A detour on which the whole query fails. -/
private def failing : Detour where
  misfit := .error (.conceptNotFound "detour")
  fixedPart _ _ _ := .error (.conceptNotFound "detour")

theorem coupled_takes_no_detour : coupled.Clean ∧
    (∃ names : List String, names.Perm ["$a", "$a", "$b"] ∧
      coupled.match? coupled.mask = some (.numbered 0 (names.map .atom))) ∧
    (coupled.match? coupled.mask).bind (·["$0"]?) = some (.atom "$b") ∧
    DepartsAtClean (fun _ => failing) (tableOf sights) sightRules ∧
    ∃ found, answersBy (fun _ => failing) ⟨"home", 2⟩ (tableOf sights) false sightRules =
      .ok found ∧ (∅ : Bindings).insert "$who" (.atom "ann") ∈ found := by
  have clean : coupled.Clean := by decide
  obtain ⟨-, places, same⟩ := detours_not_taken clean
  have vars : coupled.vars = ["$a", "$a", "$b"] := by decide
  have storable : ∀ c ∈ sights, Storable c := by
    simpa [sights] using ⟨⟨by decide, by decide⟩, ⟨by decide, by decide⟩⟩
  have plain : ∀ c ∈ sights, IsPlainFact c := by
    simpa [sights] using ⟨⟨⟨by decide, by decide, by decide⟩, by decide⟩,
      ⟨⟨by decide, by decide, by decide⟩, by decide⟩⟩
  have isRule : ∀ r ∈ sightRules, IsRule r := by
    simpa [sightRules] using ⟨⟨⟨by decide, by decide, by decide⟩,
      .inr ⟨rfl, "see", by decide, by decide⟩⟩,
      ⟨⟨by decide, by decide, by decide⟩, .inr ⟨rfl, "here", by decide, by decide⟩⟩⟩
  have indexed := indexed_add_create .memory ⟨"home", 2⟩ storable
  have departs : DepartsAtClean (fun _ => failing) (tableOf sights) sightRules :=
    .inr ⟨indexed.isClean, fun r hr => (isRule r hr).clean⟩
  obtain ⟨found, e, -, solutions⟩ := indexed.exists_answers_eq_ok (fun c hc => by
    rw [List.mem_toFinset, List.mem_append, List.mem_flatMap] at hc
    rcases hc with hc | ⟨d, hd, hc⟩
    · exact plain c hc
    · exact (plain d hd).of_mem_inside hc) ⟨"home", 2⟩ isRule
  refine ⟨clean, vars ▸ places, by decide, departs, found, (same _ _ _ _ _ departs).trans e,
    (solutions _).mpr ⟨fun name => ?_, ?_⟩⟩
  · have asked : ∀ r ∈ sightRules, r.vars = ["$who"] := by decide
    have named : (∃ r ∈ sightRules, name ∈ r.vars) ↔ "$who" = name := by
      constructor
      · rintro ⟨r, hr, hn⟩
        simpa [asked r hr, eq_comm] using hn
      · rintro rfl
        exact ⟨_, List.mem_cons_self .., by decide⟩
    rw [named, Std.ExtTreeMap.getElem?_insert]
    simp
  · decide

end ConceptSpace.FactBase
